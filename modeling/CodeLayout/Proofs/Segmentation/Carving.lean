import CodeLayout.Placement
import CodeLayout.Proofs.Cache.Usable
import CodeLayout.Proofs.Size.Checked

/-!
# Carving

The managed partitions take their bytes from the non-profiled one.  Nothing is lost but the
end that does not fill a granule, and the heaps that are built for them have just the bytes
that planning counts on.  All of it is done in words.
-/

namespace CodeLayout

namespace Segmentation

variable {o : Options} {s : Segmentation} {available managed : Nat}

/-! ## In words -/

/-- What remains of the non-profiled partition, computed in words.  Only the doubling is
tested before it is done. -/
def carve? (available managed : Nat) : Option (Except ConfigError Nat) :=
  if managed % Size.heapAlignment ≠ 0 then some (.error (.unalignedHeap Size.heapAlignment))
  else match Size.mul? managed 2 with
    | none => some (.error (.heapTooLarge managed))
    | some both =>
      if available ≤ both then
        some (.error (.notEnoughSpace (available / Size.kib) (both / Size.kib)))
      else (Size.sub? available both).bind fun rest =>
        (Size.alignDown? rest Size.heapAlignment).map .ok

/-- The segmentation of a set of options, computed in words. -/
def ofOptions? (o : Options) : Option (Except ConfigError Segmentation) :=
  let active := activeOf o
  let requested := requestedCapacity o
  if active.contains .hot then
    (carve? o.nonProfiledSize.toNat o.hotHeap).map fun carved => carved.map fun remaining =>
      { active, capacity := fun p => if p = .nonProfiled then remaining else requested p }
  else some (.ok { active, capacity := requested })

theorem carve?_eq (available managed : Nat) :
    carve? available managed = some (carve available managed) := by
  unfold carve? carve
  split
  · rfl
  · rw [Size.mul?, Nat.mul_comm managed 2]
    by_cases word : 2 * managed < Size.wordLimit
    · rw [if_pos word, if_neg (Nat.not_le.mpr word)]
      dsimp only
      split
      · rfl
      · rename_i roomy
        rw [Size.sub?_eq (Nat.le_of_not_le roomy), Option.bind_some,
          Size.alignDown?_eq (by decide)]
        rfl
    · rw [if_neg word, if_pos (Nat.not_lt.mp word)]

theorem ofOptions?_eq (o : Options) : ofOptions? o = some (ofOptions o) := by
  unfold ofOptions? ofOptions
  dsimp only
  split
  · rw [carve?_eq]
    rfl
  · rfl

/-! ## What is carved -/

/-- The capacities of a segmentation with managed partitions. -/
structure Carves (o : Options) (s : Segmentation) : Prop where
  active : s.active = activeOf o
  nonProfiled : s.isActive .nonProfiled = true
  hot : s.capacity .hot = o.hotHeap
  tmp : s.capacity .tmp = o.hotHeap
  granules : Size.heapAlignment ∣ s.capacity .nonProfiled
  within : s.capacity .nonProfiled + 2 * o.hotHeap ≤ o.nonProfiledSize.toNat
  ample : o.nonProfiledSize.toNat < s.capacity .nonProfiled + 2 * o.hotHeap + Size.heapAlignment
  others : ∀ p, p ≠ .nonProfiled → s.capacity p = requestedCapacity o p
  /-- The heaps of the managed partitions have the bytes of their budgets. -/
  built : ∀ host cache, Cache.reserve s host = .ok cache → ∀ p, p.isManaged = true →
    ∃ h, cache.heap? p = some h ∧ h.capacity = o.hotHeap ∧ Plan.budget s p = o.hotHeap

/-- How carving the managed partitions ends.  The conditions exclude each other, so that it
ends in each way exactly under the condition of this way. -/
inductive Carving (o : Options) : Except ConfigError Segmentation → Prop
  | unaligned (broken : ¬ Size.heapAlignment ∣ o.hotHeap) :
      Carving o (.error (.unalignedHeap Size.heapAlignment))
  | tooLarge (granules : Size.heapAlignment ∣ o.hotHeap)
      (large : Size.wordLimit ≤ 2 * o.hotHeap) : Carving o (.error (.heapTooLarge o.hotHeap))
  | cramped (granules : Size.heapAlignment ∣ o.hotHeap) (word : 2 * o.hotHeap < Size.wordLimit)
      (scant : o.nonProfiledSize.toNat ≤ 2 * o.hotHeap) :
      Carving o (.error (.notEnoughSpace (o.nonProfiledSize.toNat / Size.kib)
        (2 * o.hotHeap / Size.kib)))
  | carved {s : Segmentation} (granules : Size.heapAlignment ∣ o.hotHeap)
      (word : 2 * o.hotHeap < Size.wordLimit)
      (room : 2 * o.hotHeap < o.nonProfiledSize.toNat) (carves : Carves o s) : Carving o (.ok s)

/-- The remainder, without the mask. -/
theorem remaining_bounds (word : available < Size.wordLimit) (room : 2 * managed < available) :
    Size.heapAlignment ∣ Size.alignDown (available - 2 * managed) Size.heapAlignment ∧
      Size.alignDown (available - 2 * managed) Size.heapAlignment + 2 * managed ≤ available ∧
      available <
        Size.alignDown (available - 2 * managed) Size.heapAlignment + 2 * managed +
          Size.heapAlignment := by
  have rest : available - 2 * managed < Size.wordLimit := Nat.lt_of_le_of_lt (Nat.sub_le _ _) word
  rw [Size.alignDown_heapAlignment rest]
  simp only [Size.heapAlignment, Size.kib]
  omega

/-- The heaps of the managed partitions are built with their capacities. -/
theorem built_of_options (segmented : ofOptions o = .ok s) (active : s.isActive .hot = true)
    {host : Host} {cache : Cache} (reserved : Cache.reserve s host = .ok cache)
    {p : Partition} (managed : p.isManaged = true) :
    ∃ h, cache.heap? p = some h ∧ h.capacity = s.capacity p ∧ Plan.budget s p = s.capacity p := by
  have usable := Cache.usable_of_reserve segmented reserved
  have valid := (Cache.valid_of_reserve reserved).1
  rcases Cache.tidy_of_reserve reserved with ⟨_, rfl, _⟩
  rcases usable.site_of_routable active (.inl managed) with ⟨site, isSite, isHere, _, capacity⟩
  rcases List.mem_map.mp isSite with ⟨h, isHeap, rfl⟩
  refine ⟨h, isHere ▸ valid.heap?_of_mem isHeap, capacity, if_pos ?_⟩
  exact usable.isActive_of_routable active (.inl managed)

/-- What room there is for the managed partitions is carved. -/
theorem carves_of_options (active : (activeOf o).contains .hot = true)
    (room : 2 * o.hotHeap < o.nonProfiledSize.toNat) (segmented : ofOptions o = .ok s)
    (remaining : s.capacity .nonProfiled =
      Size.alignDown (o.nonProfiledSize.toNat - 2 * o.hotHeap) Size.heapAlignment)
    (others : ∀ p, p ≠ .nonProfiled → s.capacity p = requestedCapacity o p) : Carves o s := by
  have isActive : s.active = activeOf o := (aligned_of_options segmented).1
  have activeHot : s.isActive .hot = true := by rw [Segmentation.isActive, isActive, active]
  rcases remaining_bounds o.nonProfiledSize.toNat_lt room with ⟨granules, within, ample⟩
  rw [← remaining] at granules within ample
  have size : ∀ p, p.isManaged = true → s.capacity p = o.hotHeap := by
    intro p managed
    cases p <;> first | contradiction | exact others _ (by decide)
  refine ⟨isActive, ?_, size _ rfl, size _ rfl, granules, within, ample, others, ?_⟩
  · rw [Segmentation.isActive, isActive, (active_of_options o).2 active]
  · intro host cache reserved p managed
    rcases built_of_options segmented activeHot reserved managed with ⟨h, found, capacity, budget⟩
    exact ⟨h, found, capacity.trans (size p managed), budget.trans (size p managed)⟩

theorem carving_of_active (active : (activeOf o).contains .hot = true) :
    Carving o (ofOptions o) := by
  have isCarved : ofOptions o = (carve o.nonProfiledSize.toNat o.hotHeap).map fun remaining =>
      { active := activeOf o
        capacity := fun p => if p = .nonProfiled then remaining else requestedCapacity o p } :=
    if_pos active
  by_cases granules : Size.heapAlignment ∣ o.hotHeap
  · have noRest : ¬ o.hotHeap % Size.heapAlignment ≠ 0 :=
      not_not.mpr (Nat.mod_eq_zero_of_dvd granules)
    rcases Nat.lt_or_ge (2 * o.hotHeap) Size.wordLimit with word | large
    · rcases Nat.lt_or_ge (2 * o.hotHeap) o.nonProfiledSize.toNat with room | scant
      · rw [carve, if_neg noRest, if_neg (Nat.not_le.mpr word), if_neg (Nat.not_le.mpr room)]
          at isCarved
        have carves := carves_of_options active room isCarved rfl fun p other => if_neg other
        rw [isCarved]
        exact .carved granules word room carves
      · rw [isCarved, carve, if_neg noRest, if_neg (Nat.not_le.mpr word), if_pos scant]
        exact .cramped granules word scant
    · rw [isCarved, carve, if_neg noRest, if_pos large]
      exact .tooLarge granules large
  · have rest : o.hotHeap % Size.heapAlignment ≠ 0 :=
      fun nothing => granules (Nat.dvd_of_mod_eq_zero nothing)
    rw [isCarved, carve, if_pos rest]
    exact .unaligned granules

/-- No partition is larger than its option says. -/
theorem capacity_le_requested (segmented : ofOptions o = .ok s) (p : Partition) :
    s.capacity p ≤ requestedCapacity o p := by
  by_cases active : (activeOf o).contains .hot = true
  · have carving := segmented ▸ carving_of_active active
    cases carving with
    | carved _ _ _ carves =>
        by_cases rest : p = .nonProfiled
        · rw [rest]
          exact Nat.le_trans (Nat.le_add_right _ _) carves.within
        · exact Nat.le_of_eq (carves.others p rest)
  · rw [ofOptions, if_neg active] at segmented
    rw [← Except.ok.inj segmented]

/-- A segmentation is computed in words without an overflow.  With managed partitions it is
carved as described, or refused for the first of three reasons; without them every partition
has the capacity of its option. -/
theorem carving_conserves (o : Options) :
    ofOptions? o = some (ofOptions o) ∧
      if (activeOf o).contains .hot then Carving o (ofOptions o)
      else ∃ s, ofOptions o = .ok s ∧ s.active = activeOf o ∧ s.capacity = requestedCapacity o := by
  refine ⟨ofOptions?_eq o, ?_⟩
  split
  · rename_i active
    exact carving_of_active active
  · rename_i inactive
    exact ⟨_, if_neg inactive, rfl, rfl⟩

end Segmentation

end CodeLayout
