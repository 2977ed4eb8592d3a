import CodeLayout.Proofs.Distinct
import CodeLayout.Proofs.Placement.Assignment
import Mathlib.Algebra.Order.BigOperators.Group.List
import Mathlib.Algebra.Order.Group.Nat
import Mathlib.Data.List.Perm.Subperm

/-!
# The greedy placement

A plan is greedy.  It numbers the installed methods of a ranking at their first
occurrence and goes through them in that order: each one takes the hot
partition if the hotter methods there leave enough of its budget, else the tmp
partition under the same condition, and else no managed partition at all.

The placement is stated without the bookkeeping of the planner: what the hotter
methods use of a budget is the sum of the padded sizes of those that the
finished plan wants there.
-/

namespace CodeLayout.Plan

variable {s : Segmentation} {ps : Placements} {ranking : List Method} {plan : Plan}
  {assigned : List (Placement × Option Partition)}

/-- The installed methods of a ranking, each at its first occurrence. -/
def listed (ps : Placements) (ranking : List Method) : List Method :=
  (ranking.filter ps.contains).eraseDups

/-- The placements of the listed methods, hottest first. -/
def hottest (ps : Placements) (ranking : List Method) : List Placement :=
  (listed ps ranking).filterMap ps.find?

/-- Padded bytes of placements. -/
def bytes (placed : List Placement) : Nat :=
  (placed.map fun p => p.blob.padded).sum

/-- Padded bytes of the placements that a plan wants in a partition. -/
def load (plan : Plan) (q : Partition) (placed : List Placement) : Nat :=
  bytes (placed.filter fun p => plan.destination p = q)

/-! ## The methods that get a rank -/

/-- A method gets a rank if it is installed and has none yet. -/
theorem rankedMethods_rankMethod (s : Segmentation) (ps : Placements) (plan : Plan) (m : Method) :
    (rankMethod s ps plan m).rankedMethods =
      if ps.contains m = true ∧ m ∉ plan.rankedMethods then plan.rankedMethods ++ [m]
      else plan.rankedMethods := by
  rw [rankMethod]
  by_cases ranked : m ∈ plan.rankedMethods
  · have hasRank : (plan.rankOf m).isSome = true := by
      rw [Option.isSome_iff_ne_none, Ne, rankOf_eq_none_iff]
      exact not_not_intro ranked
    rw [if_pos hasRank, if_neg (fun holds => holds.2 ranked)]
  · rw [rankOf_eq_none_iff.mpr ranked, Placements.contains]
    cases found : ps.find? m with
    | none => simp
    | some placed =>
        rcases Placements.mem_of_find? found with ⟨_, rfl⟩
        simp [ranked, rankedMethods_rankNext]

theorem listed_concat (ps : Placements) (before : List Method) (m : Method) :
    listed ps (before ++ [m]) =
      if ps.contains m = true ∧ m ∉ listed ps before then listed ps before ++ [m]
      else listed ps before := by
  simp only [listed, List.filter_append, List.filter_cons, List.filter_nil, List.mem_eraseDups]
  by_cases installed : ps.contains m = true
  · rw [if_pos installed]
    by_cases old : m ∈ before.filter ps.contains
    · rw [Distinct.eraseDups_concat_of_mem old, if_neg (fun holds => holds.2 old)]
    · rw [Distinct.eraseDups_concat_of_not_mem old, if_pos ⟨installed, old⟩]
  · rw [if_neg installed, List.append_nil, if_neg (fun holds => installed holds.1)]

theorem rankedMethods_ofRanks (s : Segmentation) (ps : Placements) (ranking : List Method) :
    (ofRanks s ps ranking).rankedMethods = listed ps ranking := by
  induction ranking using List.reverseRecOn with
  | nil => rfl
  | append_singleton before m inductionHypothesis =>
      rw [ofRanks, List.foldl_append, List.foldl_cons, List.foldl_nil, ← ofRanks,
        rankedMethods_rankMethod, inductionHypothesis, listed_concat]

namespace Built

theorem ranks_eq (built : Built s ps assigned plan) : plan.ranks = plan.rankedMethods.zipIdx := by
  induction built with
  | empty => rfl
  | @next assigned plan placed _ _ _ inductionHypothesis =>
      rw [rankedMethods_rankNext, List.zipIdx_append, ← inductionHypothesis]
      simp [rankNext, rankedMethods]

/-- The assignments are those of the ranked methods, in the order of the ranks. -/
theorem placements_eq (built : Built s ps assigned plan)
    (nodup : (ps.map Placement.method).Nodup) :
    assigned.map Prod.fst = plan.rankedMethods.filterMap ps.find? := by
  rw [built.rankedMethods_eq, List.filterMap_map, ← List.filterMap_eq_map]
  apply List.filterMap_congr
  intro a isAssigned
  exact (Placements.find?_of_mem nodup (built.installed a isAssigned)).symm

theorem needed_eq (built : Built s ps assigned plan) :
    plan.needed = bytes (assigned.map Prod.fst) := by
  induction built with
  | empty => rfl
  | next _ _ _ inductionHypothesis =>
      rw [bytes] at inductionHypothesis ⊢
      simp [rankNext, inductionHypothesis]

/-- The moves of the ranked methods, in the order of the ranks. -/
theorem moves_eq (built : Built s ps assigned plan) :
    plan.moves = (assigned.zipIdx.filter fun a =>
      aim s a.1.2 a.1.1.partition ≠ a.1.1.partition).map fun a => moveFor s a.1 (some a.2) := by
  induction built with
  | empty => rfl
  | @next assigned plan placed built _ _ inductionHypothesis =>
      have rank : plan.ranks.length = assigned.length := by
        simpa [rankedMethods] using congrArg List.length built.rankedMethods_eq
      rw [List.zipIdx_append, List.filter_append, List.map_append, ← inductionHypothesis]
      simp only [rankNext, choose_eq, rank, List.zipIdx_cons, List.zipIdx_nil,
        List.filter_cons, List.filter_nil, decide_eq_true_eq, Nat.zero_add]
      split
      · rename_i stays
        simp [stays]
      · rfl

/-- A method is assigned what the assignments of the hotter ones leave. -/
theorem assignment_eq (built : Built s ps assigned plan)
    {before after : List (Placement × Option Partition)} {a : Placement × Option Partition}
    (split : assigned = before ++ a :: after) :
    a.2 = if a.1.blob.padded + assignedTo before .hot ≤ budget s .hot then some .hot
      else if a.1.blob.padded + assignedTo before .tmp ≤ budget s .tmp then some .tmp
      else none := by
  induction built generalizing after with
  | empty => simp at split
  | @next assigned plan placed built _ _ inductionHypothesis =>
      rcases List.eq_nil_or_concat after with rfl | ⟨earlier, last, rfl⟩
      · rcases List.append_inj' split rfl with ⟨rfl, same⟩
        rcases built.used with ⟨⟨hot, _⟩, tmp, _⟩
        rw [← List.head_eq_of_cons_eq same, hot, tmp]
        simp only [assign, Nat.add_comm]
      · rw [List.concat_eq_append, ← List.cons_append, ← List.append_assoc] at split
        exact inductionHypothesis (List.append_inj' split rfl).1

end Built

theorem hottest_eq (nodup : (ps.map Placement.method).Nodup)
    (built : Built s ps assigned (ofRanks s ps ranking)) :
    hottest ps ranking = assigned.map Prod.fst := by
  rw [hottest, ← rankedMethods_ofRanks s, built.placements_eq nodup]

/-! ## Where the ranked methods are to be -/

/-- Nothing but an assignment leads into a managed partition. -/
theorem aim_eq_iff {k : Option Partition} {current q : Partition} (managed : q.isManaged = true) :
    aim s k current = q ↔ k = some q := by
  cases k with
  | none =>
      constructor
      · intro leads
        have unmanaged := isManaged_outside s current
        rw [aim, Option.getD_none] at leads
        rw [leads, managed] at unmanaged
        contradiction
      · intro assigns
        contradiction
  | some p =>
      rw [aim, Option.getD_some, Option.some.injEq]

theorem destination_of_assigned (nodup : (ps.map Placement.method).Nodup)
    (built : Built s ps assigned (ofRanks s ps ranking)) {a : Placement × Option Partition}
    (isAssigned : a ∈ assigned) :
    (ofRanking s ps ranking).destination a.1 = aim s a.2 a.1.partition := by
  rw [destination_eq nodup built (built.installed a isAssigned)]
  exact wanted_of_assigned built isAssigned

/-- What is assigned to a managed partition is what the plan wants there. -/
theorem load_eq (nodup : (ps.map Placement.method).Nodup)
    (built : Built s ps assigned (ofRanks s ps ranking)) {q : Partition}
    (managed : q.isManaged = true) {some : List (Placement × Option Partition)}
    (within : ∀ a ∈ some, a ∈ assigned) :
    load (ofRanking s ps ranking) q (some.map Prod.fst) = assignedTo some q := by
  rw [load, bytes, assignedTo, List.filter_map, List.map_map]
  congr 2
  apply List.filter_congr
  intro a member
  rw [Function.comp_apply, destination_of_assigned nodup built (within a member),
    decide_eq_decide]
  exact aim_eq_iff managed

/-! ## Sums of padded sizes -/

theorem bytes_le_of_sublist {some all : List Placement} (within : some.Sublist all) :
    bytes some ≤ bytes all :=
  (within.map _).sum_le_sum fun _ _ => Nat.zero_le _

/-- Different placements among others have no more bytes than those together. -/
theorem bytes_le_of_subset {some all : List Placement} (nodup : some.Nodup)
    (within : ∀ p ∈ some, p ∈ all) : bytes some ≤ bytes all := by
  rcases List.subperm_of_subset nodup within with ⟨picked, perm, sublist⟩
  rw [bytes, ← (perm.map _).sum_nat]
  exact bytes_le_of_sublist sublist

/-- A method and the hotter ones that are wanted in a partition. -/
theorem load_le_bytes (plan : Plan) (q : Partition) (hotter cooler : List Placement)
    (p : Placement) : p.blob.padded + load plan q hotter ≤ bytes (hotter ++ p :: cooler) := by
  have part : load plan q hotter ≤ bytes hotter := bytes_le_of_sublist List.filter_sublist
  simp only [bytes, List.map_append, List.map_cons, List.sum_append, List.sum_cons] at part ⊢
  omega

/-! ## The plan for a ranking -/

/-- The plan is the greedy one for a ranking of the methods placed. -/
structure Greedy (s : Segmentation) (ps : Placements) (ranking : List Method) (plan : Plan) :
    Prop where
  /-- The ranks count the installed methods of the ranking. -/
  ranks : plan.ranks = (listed ps ranking).zipIdx
  needed : plan.needed = bytes (hottest ps ranking)
  /-- What the hotter methods leave of the budgets decides, the hot one first. -/
  target : ∀ hotter p cooler, hottest ps ranking = hotter ++ p :: cooler →
    plan.destination p =
      if p.blob.padded + load plan .hot hotter ≤ budget s .hot then .hot
      else if p.blob.padded + load plan .tmp hotter ≤ budget s .tmp then .tmp
      else if p.partition.isManaged then s.fallback
      else p.partition
  hotUsed : plan.hotUsed = load plan .hot (hottest ps ranking) ∧ plan.hotUsed ≤ budget s .hot
  tmpUsed : plan.tmpUsed = load plan .tmp (hottest ps ranking) ∧ plan.tmpUsed ≤ budget s .tmp
  /-- Unranked methods leave the managed partitions in the order of installation;
  then follow the ranked methods that are wanted elsewhere, hottest first. -/
  moves : plan.moves =
    ((ps.filter fun p => p.partition.isManaged = true ∧ p.method ∉ listed ps ranking).map fun p =>
        ⟨p.method, p.partition, s.fallback, none⟩) ++
      ((hottest ps ranking).zipIdx.filter fun r => plan.destination r.1 ≠ r.1.partition).map
        fun r => ⟨r.1.method, r.1.partition, plan.destination r.1, some r.2⟩
  once : (plan.moves.map Move.method).Nodup
  /-- No sum that is compared exceeds the bytes of all methods. -/
  within : plan.needed ≤ bytes ps ∧ ∀ q hotter p cooler,
    hottest ps ranking = hotter ++ p :: cooler → p.blob.padded + load plan q hotter ≤ bytes ps

/-- A ranked method goes where the budgets that the hotter ones leave allow. -/
theorem destination_of_hottest (nodup : (ps.map Placement.method).Nodup)
    {hotter cooler : List Placement} {p : Placement}
    (split : hottest ps ranking = hotter ++ p :: cooler) :
    (ofRanking s ps ranking).destination p =
      if p.blob.padded + load (ofRanking s ps ranking) .hot hotter ≤ budget s .hot then .hot
      else if p.blob.padded + load (ofRanking s ps ranking) .tmp hotter ≤ budget s .tmp then .tmp
      else if p.partition.isManaged then s.fallback
      else p.partition := by
  rcases exists_built s ps ranking with ⟨assigned, built⟩
  rw [hottest_eq nodup built] at split
  rcases List.map_eq_append_iff.mp split with ⟨before, rest, rfl, rfl, later⟩
  rcases List.map_eq_cons_iff.mp later with ⟨a, after, rfl, rfl, rfl⟩
  have earlier : ∀ b ∈ before, b ∈ before ++ a :: after := fun _ => List.mem_append_left _
  rw [destination_of_assigned nodup built (List.mem_append_right _ List.mem_cons_self),
    load_eq nodup built rfl earlier, load_eq nodup built rfl earlier, built.assignment_eq rfl]
  split
  · rfl
  · split <;> rfl

theorem moves_of_hottest (nodup : (ps.map Placement.method).Nodup) :
    (ofRanks s ps ranking).moves =
      ((hottest ps ranking).zipIdx.filter fun r =>
          (ofRanking s ps ranking).destination r.1 ≠ r.1.partition).map fun r =>
        ⟨r.1.method, r.1.partition, (ofRanking s ps ranking).destination r.1, some r.2⟩ := by
  rcases exists_built s ps ranking with ⟨assigned, built⟩
  have leads : ∀ a ∈ assigned.zipIdx, (ofRanking s ps ranking).destination a.1.1 =
      aim s a.1.2 a.1.1.partition := fun a isAssigned =>
    destination_of_assigned nodup built (List.fst_mem_of_mem_zipIdx isAssigned)
  rw [built.moves_eq, hottest_eq nodup built, List.zipIdx_map, List.filter_map, List.map_map]
  have kept : (assigned.zipIdx.filter fun a => aim s a.1.2 a.1.1.partition ≠ a.1.1.partition) =
      assigned.zipIdx.filter fun a =>
        (ofRanking s ps ranking).destination a.1.1 ≠ a.1.1.partition := by
    apply List.filter_congr
    intro a isAssigned
    rw [leads a isAssigned]
  rw [kept]
  apply List.map_congr_left
  intro a isKept
  rw [Function.comp_apply, Prod.map_fst, Prod.map_snd, leads a (List.mem_of_mem_filter isKept)]
  rfl

/-- The ranked methods that are wanted in a managed partition are those assigned to
it. -/
theorem load_hottest (nodup : (ps.map Placement.method).Nodup)
    (built : Built s ps assigned (ofRanks s ps ranking)) {q : Partition}
    (managed : q.isManaged = true) :
    load (ofRanking s ps ranking) q (hottest ps ranking) = assignedTo assigned q := by
  rw [hottest_eq nodup built]
  exact load_eq nodup built managed fun _ member => member

/-- Nobody but a ranked method is wanted in a managed partition. -/
theorem mem_hottest_of_managed (nodup : (ps.map Placement.method).Nodup) {p : Placement}
    (member : p ∈ ps) (managed : ((ofRanking s ps ranking).destination p).isManaged = true) :
    p ∈ hottest ps ranking := by
  rcases exists_built s ps ranking with ⟨assigned, built⟩
  rw [destination_eq nodup built member] at managed
  rw [hottest_eq nodup built]
  by_cases ranked : p.method ∈ (ofRanks s ps ranking).rankedMethods
  · rcases built.exists_assignment nodup member ranked with ⟨k, isAssigned⟩
    exact List.mem_map_of_mem isAssigned
  · rw [wanted_of_unranked built ranked, isManaged_outside] at managed
    contradiction

theorem mem_of_mem_hottest {p : Placement} (member : p ∈ hottest ps ranking) : p ∈ ps := by
  rcases List.mem_filterMap.mp member with ⟨m, _, found⟩
  exact (Placements.mem_of_find? found).1

/-- Planning is greedy. -/
theorem greedy_ofRanking (nodup : (ps.map Placement.method).Nodup) (s : Segmentation)
    (ranking : List Method) : Greedy s ps ranking (ofRanking s ps ranking) := by
  rcases exists_built s ps ranking with ⟨assigned, built⟩
  have inOrder := hottest_eq nodup built
  have needed : (ofRanking s ps ranking).needed = bytes (hottest ps ranking) := by
    rw [inOrder]
    exact built.needed_eq
  have total : bytes (hottest ps ranking) ≤ bytes ps := by
    apply bytes_le_of_subset (inOrder ▸ built.nodup)
    exact fun p member => mem_of_mem_hottest member
  exact {
    ranks := by
      rw [← rankedMethods_ofRanks s]
      exact built.ranks_eq
    needed
    target := fun _ _ _ => destination_of_hottest nodup
    hotUsed := by
      rw [load_hottest nodup built rfl]
      exact ⟨built.used.1.1.symm, built.used.1.2⟩
    tmpUsed := by
      rw [load_hottest nodup built rfl]
      exact ⟨built.used.2.1.symm, built.used.2.2⟩
    moves := by
      rw [moves_ofRanking, moves_of_hottest nodup, evictions, ← rankedMethods_ofRanks s]
      congr 2
      apply List.filter_congr
      intro p _
      rw [Bool.eq_iff_iff]
      simp [rankOf_eq_none_iff]
    once := moves_nodup nodup s ranking
    within := by
      constructor
      · rw [needed]
        exact total
      · intro q hotter p cooler split
        rw [split] at total
        exact Nat.le_trans (load_le_bytes _ q hotter cooler p) total }

/-! ## Five methods for too little room -/

def namedMethod (name : String) : Method := ⟨"Main", name, "()V"⟩

/-- The placement of code that is as long as its padded size. -/
def placedAt (name : String) (p : Partition) (address size : Nat) : Placement :=
  ⟨namedMethod name, ⟨namedMethod name, p, address, size, size⟩, none, address⟩

def crowdedSegmentation : Segmentation where
  active := PartitionSet.ofList [.nonProfiled, .hot, .tmp]
  capacity p := if p.isManaged then 128 else 1024

def crowdedPlacements : Placements :=
  [placedAt "large" .tmp 128 96, placedAt "stale" .hot 0 32, placedAt "first" .nonProfiled 256 96,
    placedAt "second" .tmp 224 64, placedAt "filler" .hot 32 32]

/-- The second entry is not installed, the fifth one is repeated, and the method
that is stale has no rank. -/
def crowdedRanking : List Method :=
  ["first", "absent", "second", "filler", "first", "large"].map namedMethod

/-- The large method exceeds both budgets, the filler uses what is left of the hot
one. -/
theorem greedy_crowded :
    (crowdedPlacements.map Placement.method).Nodup ∧
      Greedy crowdedSegmentation crowdedPlacements crowdedRanking
        (ofRanking crowdedSegmentation crowdedPlacements crowdedRanking) ∧
      (ofRanking crowdedSegmentation crowdedPlacements crowdedRanking).moves =
        [⟨namedMethod "stale", .hot, .nonProfiled, none⟩,
          ⟨namedMethod "first", .nonProfiled, .hot, some 0⟩,
          ⟨namedMethod "large", .tmp, .nonProfiled, some 3⟩] := by
  have nodup : (crowdedPlacements.map Placement.method).Nodup := by decide
  exact ⟨nodup, greedy_ofRanking nodup crowdedSegmentation crowdedRanking, by decide⟩

end CodeLayout.Plan
