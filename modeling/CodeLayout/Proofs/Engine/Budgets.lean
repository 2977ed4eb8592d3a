import CodeLayout.Proofs.Engine.Consistency
import CodeLayout.Proofs.Order.WellFormed
import CodeLayout.Proofs.Placement.Budgets
import Mathlib.Algebra.BigOperators.Group.List.Basic
import Mathlib.Order.Interval.Finset.Nat

/-!
# Budgets in words

What an engine has installed lies in heaps without a common address, so that all of it
together is no longer than the address space; this is why the sums of a plan are words.  A
seed has nothing installed yet.  There a budget and the length that is tried next are what
keeps the sums small.
-/

namespace CodeLayout

/-! ## The bytes in an address space -/

/-- Blobs that lie apart are no longer together than what they lie in. -/
theorem Blob.sum_padded_le {blobs : List Blob} {limit : Nat} (apart : blobs.Pairwise Apart)
    (within : ∀ b ∈ blobs, b.address + b.padded ≤ limit) :
    (blobs.map Blob.padded).sum ≤ limit := by
  have taken : ∃ addresses : Finset Nat, addresses.card = (blobs.map Blob.padded).sum ∧
      ∀ a ∈ addresses, ∃ b ∈ blobs, b.address ≤ a ∧ a < b.address + b.padded := by
    clear within
    induction blobs with
    | nil => exact ⟨∅, rfl, by simp⟩
    | cons b rest inductionHypothesis =>
        rw [List.pairwise_cons] at apart
        rcases inductionHypothesis apart.2 with ⟨addresses, count, held⟩
        have disjoint : Disjoint (Finset.Ico b.address (b.address + b.padded)) addresses := by
          refine Finset.disjoint_left.mpr fun a first second => ?_
          rcases held a second with ⟨c, isBlob, start, stop⟩
          have range := Finset.mem_Ico.mp first
          rcases apart.1 c isBlob with below | above <;> omega
        refine ⟨Finset.Ico b.address (b.address + b.padded) ∪ addresses, ?_, fun a member => ?_⟩
        · rw [Finset.card_union_of_disjoint disjoint, Nat.card_Ico, count, List.map_cons,
            List.sum_cons, Nat.add_sub_cancel_left]
        · rcases Finset.mem_union.mp member with first | second
          · exact ⟨b, List.mem_cons_self, Finset.mem_Ico.mp first⟩
          · rcases held a second with ⟨c, isBlob, range⟩
            exact ⟨c, List.mem_cons_of_mem _ isBlob, range⟩
  rcases taken with ⟨addresses, count, held⟩
  have inside : addresses ⊆ Finset.range limit := by
    intro a member
    rcases held a member with ⟨b, isBlob, _, stop⟩
    exact Finset.mem_range.mpr (Nat.lt_of_lt_of_le stop (within b isBlob))
  rw [← count, ← Finset.card_range limit]
  exact Finset.card_le_card inside

/-- Every address of a heap, and the one behind it, is a word. -/
def Cache.Addressable (c : Cache) : Prop :=
  ∀ site ∈ c.sites, site.base + site.span < Size.wordLimit

/-- Heaps without a common address hold less than a word can count. -/
theorem Cache.Valid.bytes_lt {c : Cache} (valid : c.Valid) (separate : c.Separate)
    (addressable : c.Addressable) : (c.blobs.map Blob.padded).sum < Size.wordLimit := by
  have within : ∀ b ∈ c.blobs, b.address + b.padded ≤ Size.wordLimit - 1 := by
    intro b live
    rcases valid.exists_heap live with ⟨h, _, isHeap, inHeap⟩
    have stop := (valid.heaps h isHeap).stop_le_span inHeap
    have last : h.base + h.site.span < Size.wordLimit :=
      addressable h.site (List.mem_map_of_mem isHeap)
    omega
  have positive : 0 < Size.wordLimit := by decide
  have sum := Blob.sum_padded_le (valid.apart separate) within
  omega

namespace Engine

variable {e : Engine} {code : Method → Option ByteArray} {s : Segmentation} {order : Order}

/-- What is placed is what is in the heaps. -/
theorem Consistent.bytes_lt (consistent : e.Consistent code) (separate : e.cache.Separate)
    (addressable : e.cache.Addressable) : Plan.bytes e.placements < Size.wordLimit := by
  have held := consistent.held
  have sum := (held.blobs.map Blob.padded).sum_nat
  rw [List.map_map] at sum
  rw [Plan.bytes]
  exact sum ▸ held.stores.valid.bytes_lt separate addressable

/-! ## Seeds -/

/-- Spread the next method of a seed over the budgets, adding up in words. -/
def SeedBudget.assign? (s : Segmentation) (b : SeedBudget) (m : Method) (size : Nat) :
    Option SeedBudget := do
  let padded ← Size.padded? size
  let hot ← Size.add? b.hotUsed padded
  if hot ≤ Plan.budget s .hot then
    return { b with hotUsed := hot, targets := b.targets ++ [(m, .hot)] }
  let tmp ← Size.add? b.tmpUsed padded
  if tmp ≤ Plan.budget s .tmp then
    return { b with tmpUsed := tmp, targets := b.targets ++ [(m, .tmp)] }
  return b

/-- The partitions for the methods of a seed, adding up in words. -/
def seedTargetsOf? (s : Segmentation) (order : Order) : Option (List (Method × Partition)) :=
  let start : SeedBudget := ⟨0, 0, []⟩
  (order.methods.foldlM (fun (b : SeedBudget) entry => b.assign? s entry.1 entry.2) start).map
    SeedBudget.targets

/-- The budgets are not overdrawn. -/
structure SeedBudget.Within (s : Segmentation) (b : SeedBudget) : Prop where
  hot : b.hotUsed ≤ Plan.budget s .hot
  tmp : b.tmpUsed ≤ Plan.budget s .tmp

/-- A budget and one more length are a word together. -/
theorem SeedBudget.assign?_eq {b : SeedBudget} (within : b.Within s)
    (limited : ∀ p, s.capacity p ≤ Size.largest) (m : Method) {size : Nat}
    (listed : size ≤ Size.largest) :
    b.assign? s m size = some (b.assign s m size) ∧ (b.assign s m size).Within s := by
  have padded := Size.padded_le listed
  have hotLimited := Nat.le_trans (Plan.budget_le_capacity s .hot) (limited .hot)
  have tmpLimited := Nat.le_trans (Plan.budget_le_capacity s .tmp) (limited .tmp)
  have hotWithin := within.hot
  have tmpWithin := within.tmp
  have words : b.hotUsed + Size.padded size < Size.wordLimit ∧
      b.tmpUsed + Size.padded size < Size.wordLimit := by
    simp only [Size.largest, Size.wordLimit, Nat.reduceShiftLeft] at padded hotLimited tmpLimited ⊢
    omega
  rw [assign?, Size.padded?_eq listed]
  simp only [Option.bind_eq_bind, Option.bind_some, Size.add?_eq words.1, Size.add?_eq words.2,
    assign]
  split
  · rename_i fits
    exact ⟨rfl, fits, within.tmp⟩
  · split
    · rename_i fits
      exact ⟨rfl, within.hot, fits⟩
    · exact ⟨rfl, within⟩

/-- No sum of a seed leaves the word if the listed sizes and the capacities are limited. -/
theorem seedTargetsOf?_eq (limited : ∀ p, s.capacity p ≤ Size.largest)
    (listed : ∀ entry ∈ order.methods, entry.2 ≤ Size.largest) :
    seedTargetsOf? s order = some (seedTargetsOf s order) := by
  have spread : order.methods.foldlM
      (fun (b : SeedBudget) entry => b.assign? s entry.1 entry.2) ⟨0, 0, []⟩ =
      some (order.methods.foldl
        (fun (b : SeedBudget) entry => b.assign s entry.1 entry.2) ⟨0, 0, []⟩) := by
    refine Size.foldlM_eq_some (SeedBudget.Within s) ⟨Nat.zero_le _, Nat.zero_le _⟩ ?_
    exact fun b entry member within =>
      SeedBudget.assign?_eq within limited entry.1 (listed entry member)
  rw [seedTargetsOf?, spread]
  rfl

end Engine

end CodeLayout
