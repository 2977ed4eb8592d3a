import CodeLayout.Engine
import CodeLayout.Proofs.Placement.Assignment
import Mathlib.Algebra.Order.BigOperators.Group.List
import Mathlib.Algebra.Order.Group.Nat
import Mathlib.Data.List.Perm.Subperm

/-!
# Targets of a seed

A seed assigns its methods to the managed partitions by the listed code lengths,
before anything is installed; a plan assigns what is installed by the sizes of
the blobs.  Both spend the same budgets in the same order.  So when all listed
methods are installed with the listed lengths, the plan for the seed wants each
of them where the seed does.
-/

namespace CodeLayout.Engine

/-- A listed method with its code length and the partition assigned to it. -/
structure Share where
  method : Method
  size : Nat
  target : Option Partition

namespace Share

/-- The bytes that the method takes off a budget. -/
def padded (share : Share) : Nat :=
  Size.padded share.size

/-- What a seed notes of the share. -/
def note? (share : Share) : Option (Method × Partition) :=
  share.target.map fun p => (share.method, p)

end Share

/-- The managed partition whose budget a padded size still fits. -/
def SeedBudget.choose (s : Segmentation) (b : SeedBudget) (padded : Nat) : Option Partition :=
  if b.hotUsed + padded ≤ Plan.budget s .hot then some .hot
  else if b.tmpUsed + padded ≤ Plan.budget s .tmp then some .tmp
  else none

/-- A method that fits neither budget does not change them. -/
theorem SeedBudget.assign_of_choose {s : Segmentation} {b : SeedBudget} {m : Method} {size : Nat}
    (neither : b.choose s (Size.padded size) = none) : b.assign s m size = b := by
  unfold SeedBudget.choose at neither
  split at neither
  · contradiction
  · rename_i hotFull
    split at neither
    · contradiction
    · rename_i tmpFull
      rw [SeedBudget.assign, if_neg hotFull, if_neg tmpFull]

/-- The plan has spent the same budgets as the seed. -/
structure SeedBudget.Agrees (b : SeedBudget) (plan : Plan) : Prop where
  hotUsed : plan.hotUsed = b.hotUsed
  tmpUsed : plan.tmpUsed = b.tmpUsed

namespace SeedBudget.Agrees

variable {s : Segmentation} {b : SeedBudget} {plan : Plan} {p : Placement} {size : Nat}

theorem assign_eq (agrees : b.Agrees plan) (padded : Nat) :
    plan.assign s padded = b.choose s padded := by
  rw [Plan.assign, choose, agrees.hotUsed, agrees.tmpUsed]

theorem next (agrees : b.Agrees plan) (padded : p.blob.padded = Size.padded size) (m : Method) :
    (b.assign s m size).Agrees (Plan.rankNext s plan p) := by
  constructor
  · simp only [Plan.rankNext, assign, agrees.hotUsed, padded]
    split
    · rfl
    · split <;> rfl
  · simp only [Plan.rankNext, assign, agrees.hotUsed, agrees.tmpUsed, padded]
    split
    · rfl
    · split <;> rfl

end SeedBudget.Agrees

/-- How the budgets of a seed are spent, one entry after another. -/
inductive Spent (s : Segmentation) : List Share → SeedBudget → Prop
  | empty : Spent s [] ⟨0, 0, []⟩
  | next {shares : List Share} {b : SeedBudget} (spent : Spent s shares b) (m : Method)
      (size : Nat) :
      Spent s (shares ++ [⟨m, size, b.choose s (Size.padded size)⟩]) (b.assign s m size)

variable {s : Segmentation} {order : Order} {shares : List Share} {b : SeedBudget}
  {share : Share} {ps : Placements} {m : Method} {q : Partition} {size : Nat}

/-- The bytes that are assigned to a partition. -/
def assignedBytes (shares : List Share) (p : Partition) : Nat :=
  ((shares.filter fun share => share.target = some p).map Share.padded).sum

/-- Entries of different keys, each no greater than one of its key in a list, make no
greater sum than the list. -/
theorem sum_snd_le_of_covered {α : Type} [DecidableEq α] {some all : List (α × Nat)}
    (distinct : (some.map Prod.fst).Nodup)
    (covered : ∀ x ∈ some, ∃ y ∈ all, y.1 = x.1 ∧ x.2 ≤ y.2) :
    (some.map Prod.snd).sum ≤ (all.map Prod.snd).sum := by
  induction some generalizing all with
  | nil => exact Nat.zero_le _
  | cons x rest inductionHypothesis =>
      rcases List.nodup_cons.mp distinct with ⟨new, distinctRest⟩
      rcases covered x List.mem_cons_self with ⟨y, isEntry, sameKey, within⟩
      have split := ((List.perm_cons_erase isEntry).map Prod.snd).sum_nat
      have coveredRest : ∀ z ∈ rest, ∃ w ∈ all.erase y, w.1 = z.1 ∧ z.2 ≤ w.2 := by
        intro z later
        rcases covered z (List.mem_cons_of_mem x later) with ⟨w, isOther, sameOther, below⟩
        refine ⟨w, (List.mem_erase_of_ne ?_).mpr isOther, sameOther, below⟩
        rintro rfl
        exact new (sameKey ▸ sameOther ▸ List.mem_map_of_mem later)
      have restWithin := inductionHypothesis distinctRest coveredRest
      rw [List.map_cons, List.sum_cons] at split ⊢
      omega

/-! ## What a seed notes -/

/-- What is noted for a method is the target of a share of it. -/
theorem exists_of_lookup_notes (target : (shares.filterMap Share.note?).lookup m = some q) :
    ∃ share ∈ shares, share.method = m ∧ share.target = some q := by
  have noted : (m, q) ∈ shares.filterMap Share.note? := by
    rcases List.lookup_eq_some_iff.mp target with ⟨before, behind, split, _⟩
    simp [split]
  rcases List.mem_filterMap.mp noted with ⟨share, member, isNote⟩
  rcases Option.map_eq_some_iff.mp isNote with ⟨p, isTarget, equal⟩
  cases equal
  exact ⟨share, member, rfl, isTarget⟩

theorem lookup_notes (distinct : (shares.map Share.method).Nodup) (member : share ∈ shares) :
    (shares.filterMap Share.note?).lookup share.method = share.target := by
  induction shares with
  | nil => contradiction
  | cons first rest inductionHypothesis =>
      rcases List.nodup_cons.mp distinct with ⟨new, distinctRest⟩
      rcases List.mem_cons.mp member with rfl | later
      · cases target : share.target with
        | some p => simp [Share.note?, target]
        | none =>
            simp only [Share.note?, target, Option.map_none, List.filterMap_cons_none]
            cases noted : (rest.filterMap Share.note?).lookup share.method with
            | none => rfl
            | some q =>
                rcases exists_of_lookup_notes noted with ⟨other, inRest, sameMethod, _⟩
                exact absurd (sameMethod ▸ List.mem_map_of_mem inRest) new
      · have differs : share.method ≠ first.method := fun same =>
          new (same ▸ List.mem_map_of_mem later)
        have found := inductionHypothesis distinctRest later
        cases target : first.target with
        | none => simpa [Share.note?, target] using found
        | some p =>
            simpa [Share.note?, target, List.lookup_cons, beq_false_of_ne differs] using found

namespace Spent

theorem targets (spent : Spent s shares b) : b.targets = shares.filterMap Share.note? := by
  induction spent with
  | empty => rfl
  | @next shares b _ m size inductionHypothesis =>
      rw [List.filterMap_append, ← inductionHypothesis]
      simp only [SeedBudget.assign, SeedBudget.choose]
      split
      · rfl
      · split
        · rfl
        · exact (List.append_nil _).symm

theorem lookup (spent : Spent s shares b) (distinct : (shares.map Share.method).Nodup)
    (member : share ∈ shares) : b.targets.lookup share.method = share.target := by
  rw [spent.targets]
  exact lookup_notes distinct member

/-- A method has a target only from its share. -/
theorem exists_share (spent : Spent s shares b)
    (target : b.targets.lookup m = some q) :
    ∃ share ∈ shares, share.method = m ∧ share.target = some q := by
  rw [spent.targets] at target
  exact exists_of_lookup_notes target

theorem isManaged (spent : Spent s shares b) (member : share ∈ shares)
    (target : share.target = some q) : q.isManaged = true := by
  induction spent with
  | empty => contradiction
  | next _ _ _ inductionHypothesis =>
      rcases List.mem_append.mp member with earlier | last
      · exact inductionHypothesis earlier
      · rw [List.mem_singleton.mp last] at target
        unfold SeedBudget.choose at target
        split at target
        · cases target
          rfl
        · split at target
          · cases target
            rfl
          · contradiction

/-- The bytes assigned to a managed partition stay within its budget. -/
theorem within (spent : Spent s shares b) :
    (assignedBytes shares .hot = b.hotUsed ∧ b.hotUsed ≤ Plan.budget s .hot) ∧
      assignedBytes shares .tmp = b.tmpUsed ∧ b.tmpUsed ≤ Plan.budget s .tmp := by
  induction spent with
  | empty => exact ⟨⟨rfl, Nat.zero_le _⟩, rfl, Nat.zero_le _⟩
  | @next shares b _ m size inductionHypothesis =>
      rcases inductionHypothesis with ⟨⟨hot, hotFits⟩, tmp, tmpFits⟩
      simp only [assignedBytes, List.filter_append, List.map_append, List.sum_append] at hot tmp ⊢
      rw [hot, tmp]
      simp only [SeedBudget.assign, SeedBudget.choose]
      split
      · rename_i fits
        simpa [Share.padded] using ⟨fits, tmpFits⟩
      · split
        · rename_i fits
          simpa [Share.padded] using ⟨hotFits, fits⟩
        · simpa using ⟨hotFits, tmpFits⟩

/-- If the hot partition has a budget for all of them, they are assigned to it. -/
theorem target_eq_hot (spent : Spent s shares b)
    (ample : (shares.map Share.padded).sum ≤ Plan.budget s .hot) :
    b.hotUsed = (shares.map Share.padded).sum ∧ ∀ share ∈ shares, share.target = some .hot := by
  induction spent with
  | empty => exact ⟨rfl, by simp⟩
  | @next shares b _ m size inductionHypothesis =>
      simp only [List.map_append, List.map_singleton, List.sum_append, List.sum_singleton,
        Share.padded] at ample ⊢
      rcases inductionHypothesis (Nat.le_trans (Nat.le_add_right _ _) ample) with
        ⟨hotUsed, targets⟩
      have fits : b.hotUsed + Size.padded size ≤ Plan.budget s .hot := hotUsed ▸ ample
      constructor
      · rw [SeedBudget.assign, if_pos fits]
        exact congrArg (· + Size.padded size) hotUsed
      · intro share member
        rcases List.mem_append.mp member with earlier | last
        · exact targets share earlier
        · rw [List.mem_singleton.mp last]
          exact if_pos fits

/-- The budgets are spent by the listed methods in their order. -/
theorem foldl (spent : Spent s shares b) (entries : List (Method × Nat)) :
    ∃ others, others.map (fun share => (share.method, share.size)) = entries ∧
      Spent s (shares ++ others) (entries.foldl (fun b (m, size) => b.assign s m size) b) := by
  induction entries generalizing shares b with
  | nil => exact ⟨[], rfl, by rw [List.append_nil]; exact spent⟩
  | cons entry rest inductionHypothesis =>
      rcases inductionHypothesis (spent.next entry.1 entry.2) with ⟨others, listed, spentAll⟩
      refine ⟨⟨entry.1, entry.2, b.choose s (Size.padded entry.2)⟩ :: others, ?_, ?_⟩
      · rw [List.map_cons, listed]
      · rw [List.append_assoc] at spentAll
        exact spentAll

/-- A listed method that has a target finds its bytes in the budget, besides the
methods that are there for their targets. -/
theorem room (spent : Spent s shares b) (ps : Placements) (nodup : (ps.map Placement.method).Nodup)
    (sizes : ∀ p ∈ ps, ∀ share ∈ shares, share.method = p.method → p.blob.padded = share.padded)
    (there : ∀ p ∈ ps, p.partition = q → b.targets.lookup p.method = some q)
    (member : share ∈ shares) (target : share.target = some q)
    (new : share.method ∉ ps.map Placement.method) :
    ((ps.filter fun p => p.partition = q).map fun p => p.blob.padded).sum + share.padded ≤
      Plan.budget s q := by
  have methods : (share.method :: (ps.filter fun p => p.partition = q).map
      Placement.method).Nodup := by
    refine List.nodup_cons.mpr ⟨fun old => new ?_, nodup.sublist (List.filter_sublist.map _)⟩
    exact (List.filter_sublist.map _).subset old
  have assigned : ∀ load ∈ (share.method, share.padded) ::
      (ps.filter fun p => p.partition = q).map (fun p => (p.method, p.blob.padded)),
      load ∈ (shares.filter fun share => share.target = some q).map
        fun share => (share.method, share.padded) := by
    intro load isLoad
    rcases List.mem_cons.mp isLoad with rfl | old
    · exact List.mem_map_of_mem (List.mem_filter.mpr ⟨member, decide_eq_true target⟩)
    · rcases List.mem_map.mp old with ⟨p, kept, rfl⟩
      rcases List.mem_filter.mp kept with ⟨isPlacement, here⟩
      rcases spent.exists_share (there p isPlacement (of_decide_eq_true here)) with
        ⟨other, isShare, sameMethod, isTarget⟩
      rw [sizes p isPlacement other isShare sameMethod, ← sameMethod]
      exact List.mem_map_of_mem (List.mem_filter.mpr ⟨isShare, decide_eq_true isTarget⟩)
  have bytes : assignedBytes shares q ≤ Plan.budget s q := by
    rcases spent.within with ⟨⟨hot, hotFits⟩, tmp, tmpFits⟩
    have managed := spent.isManaged member target
    cases q <;> first | contradiction | omega
  have sums := sum_snd_le_of_covered (by rw [List.map_cons, List.map_map]; exact methods)
    fun load isLoad => ⟨load, assigned load isLoad, rfl, Nat.le_refl _⟩
  rw [List.map_cons, List.sum_cons, List.map_map, List.map_map] at sums
  change share.padded + ((ps.filter fun p => p.partition = q).map
    fun p => p.blob.padded).sum ≤ assignedBytes shares q at sums
  omega

/-! ## The plan for a seed -/

/-- Where every listed method that has a target is installed, and what is installed
has the listed length, a plan makes the same assignments.  A method that fits
neither budget may be missing, for it does not change them. -/
theorem built (spent : Spent s shares b) (ps : Placements)
    (distinct : (shares.map Share.method).Nodup)
    (sizes : ∀ p ∈ ps, ∀ share ∈ shares, share.method = p.method → p.blob.padded = share.padded)
    (installed : ∀ share ∈ shares, share.target ≠ none → ps.find? share.method ≠ none) :
    ∃ assigned plan, Plan.ofRanks s ps (shares.map Share.method) = plan ∧
      Plan.Built s ps assigned plan ∧
      Plan.keys assigned = (shares.filter fun share => (ps.find? share.method).isSome).map
        (fun share => (share.method, share.target)) ∧
      b.Agrees plan := by
  induction spent with
  | empty => exact ⟨[], .empty, rfl, .empty, rfl, rfl, rfl⟩
  | @next shares b _ m size inductionHypothesis =>
      rw [List.map_append, List.map_singleton, ← List.concat_eq_append,
        List.nodup_concat] at distinct
      rcases inductionHypothesis distinct.2
        (fun p isPlacement share member =>
          sizes p isPlacement share (List.mem_append_left _ member))
        (fun share member => installed share (List.mem_append_left _ member)) with
        ⟨assigned, plan, isPlan, built, keys, agrees⟩
      have isNext : Plan.ofRanks s ps ((shares ++ [Share.mk m size
          (b.choose s (Size.padded size))]).map Share.method) = Plan.rankMethod s ps plan m := by
        rw [List.map_append, Plan.ofRanks, List.foldl_append, ← isPlan]
        rfl
      have unranked : m ∉ plan.rankedMethods := by
        intro isRanked
        rw [← built.keys_eq, keys, List.map_map] at isRanked
        exact distinct.1 ((List.filter_sublist.map _).subset isRanked)
      have target := installed _ (List.mem_append_right _ List.mem_cons_self)
      rw [isNext, Plan.rankMethod, Plan.rankOf_eq_none_iff.mpr unranked, List.filter_append,
        List.map_append]
      cases found : ps.find? m with
      | none =>
          have noTarget : b.choose s (Size.padded size) = none := by
            by_contra some
            exact target some found
          refine ⟨assigned, plan, rfl, built, ?_, ?_⟩
          · simp [keys, found]
          · rw [SeedBudget.assign_of_choose noTarget]
            exact agrees
      | some p =>
          rcases Placements.mem_of_find? found with ⟨isPlacement, sameMethod⟩
          have padded : p.blob.padded = Size.padded size :=
            sizes p isPlacement _ (List.mem_append_right _ List.mem_cons_self) sameMethod.symm
          refine ⟨_, _, rfl, built.next isPlacement (sameMethod ▸ unranked), ?_,
            agrees.next padded m⟩
          rw [Plan.keys, List.map_append, ← Plan.keys, keys, padded, agrees.assign_eq]
          simp [found, sameMethod]

/-- So it wants every method where the seed does. -/
theorem wanted_eq (spent : Spent s shares b) (distinct : (shares.map Share.method).Nodup)
    {assigned : List (Placement × Option Partition)} {plan : Plan}
    (built : Plan.Built s ps assigned plan)
    (keys : Plan.keys assigned = (shares.filter fun share => (ps.find? share.method).isSome).map
      (fun share => (share.method, share.target)))
    {p : Placement} (found : ps.find? p.method = some p) :
    Plan.wanted s assigned p = Plan.aim s (b.targets.lookup p.method) p.partition := by
  rw [Plan.wanted]
  by_cases listed : p.method ∈ shares.map Share.method
  · rcases List.mem_map.mp listed with ⟨share, member, sameMethod⟩
    have isKey : (share.method, share.target) ∈ Plan.keys assigned := by
      rw [keys]
      refine List.mem_map_of_mem (List.mem_filter.mpr ⟨member, ?_⟩)
      rw [sameMethod, found]
      rfl
    rcases List.mem_map.mp isKey with ⟨a, isAssigned, equal⟩
    rcases Prod.mk.inj equal with ⟨isMethod, isTarget⟩
    have looked := built.lookup_keys isAssigned
    rw [isMethod, isTarget] at looked
    rw [← sameMethod, looked, spent.lookup distinct member]
    rfl
  · have noKey : (Plan.keys assigned).lookup p.method = none := by
      rw [keys, Plan.lookup_eq_none_iff_keys, List.map_map]
      exact fun isKey => listed ((List.filter_sublist.map _).subset isKey)
    have noTarget : b.targets.lookup p.method = none := by
      cases target : b.targets.lookup p.method with
      | none => rfl
      | some q =>
          rcases spent.exists_share target with ⟨share, member, sameMethod, _⟩
          exact absurd (List.mem_map.mpr ⟨share, member, sameMethod⟩) listed
    rw [noKey, noTarget]
    rfl

end Spent

/-! ## Seeds -/

/-- A seed has spent its budgets on the listed methods. -/
theorem exists_spent (s : Segmentation) (order : Order) :
    ∃ shares b, Spent s shares b ∧ b.targets = seedTargetsOf s order ∧
      shares.map (fun share => (share.method, share.size)) = order.methods := by
  rcases (Spent.empty (s := s)).foldl order.methods with ⟨shares, listed, spent⟩
  exact ⟨shares, _, spent, rfl, listed⟩

theorem mem_of_listed (listed : shares.map (fun share => (share.method, share.size)) =
    order.methods) (member : share ∈ shares) : (share.method, share.size) ∈ order.methods :=
  listed ▸ List.mem_map_of_mem member

theorem ranking_of_listed (listed : shares.map (fun share => (share.method, share.size)) =
    order.methods) : shares.map Share.method = order.ranking := by
  rw [Order.ranking, ← listed, List.map_map]
  rfl

end CodeLayout.Engine
