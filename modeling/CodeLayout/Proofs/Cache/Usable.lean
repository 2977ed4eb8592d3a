import CodeLayout.Proofs.Cache.Room

/-!
# Usable caches

What reordering relies on.  The managed partitions exist both or not at all,
and the fallback partition exists with them; the sizes that are carved for them
are whole granules, so that rounding leaves them alone and their memory holds
them.  Where they do not exist, no code is ever in a managed partition.
-/

namespace CodeLayout

theorem Heap.partition_reservedSite (host : Host) (p : Partition) (size : Nat) :
    (Heap.reservedSite host p size).partition = p := by
  rw [Heap.reservedSite]
  split <;> rfl

theorem Heap.capacity_reservedSite (host : Host) (p : Partition) (size : Nat) :
    (Heap.reservedSite host p size).capacity = Size.alignDown size Size.segment := by
  rw [Heap.reservedSite]
  split
  · rename_i nothing
    exact nothing.symm
  · rfl

/-- The heap of a size in whole granules has this size and is backed. -/
theorem Heap.backed_reservedSite {host : Host} {p : Partition} {size : Nat}
    (word : size < Size.wordLimit) (aligned : size % Size.heapAlignment = 0) :
    (Heap.reservedSite host p size).Backed ∧ (Heap.reservedSite host p size).capacity = size := by
  have whole := Size.alignDown_of_aligned word aligned
  constructor
  · rw [Heap.backed_reservedSite_iff, whole]
    exact Size.add_pageSize_le host.pageSize_le word aligned
  · exact (Heap.capacity_reservedSite host p size).trans whole

namespace Segmentation

/-- The partitions that reordering moves methods into. -/
def Routable (s : Segmentation) (p : Partition) : Prop :=
  p.isManaged = true ∨ p = s.fallback

variable {o : Options} {s : Segmentation}

theorem isActive_of_isManaged (hot : s.isActive .hot = true) (tmp : s.isActive .tmp = true)
    {p : Partition} (managed : p.isManaged = true) : s.isActive p = true := by
  cases p <;> first | contradiction | exact hot | exact tmp

/-- The managed partitions are active both or not at all, and with them the
non-profiled one is. -/
theorem active_of_options (o : Options) :
    (activeOf o).contains .tmp = (activeOf o).contains .hot ∧
      ((activeOf o).contains .hot = true → (activeOf o).contains .nonProfiled = true) := by
  unfold activeOf
  split
  · exact ⟨rfl, fun active => by contradiction⟩
  · split
    · exact ⟨rfl, fun active => by contradiction⟩
    · dsimp only
      split <;> split <;> exact ⟨rfl, fun _ => rfl⟩

/-- What is carved out, and what remains, are whole granules below a word. -/
theorem aligned_of_carve {available managed remaining : Nat} (word : available < Size.wordLimit)
    (carved : carve available managed = .ok remaining) :
    managed % Size.heapAlignment = 0 ∧ managed < Size.wordLimit ∧
      remaining % Size.heapAlignment = 0 ∧ remaining < Size.wordLimit := by
  unfold carve at carved
  split at carved
  · contradiction
  · rename_i aligned
    split at carved
    · contradiction
    · rename_i small
      split at carved
      · contradiction
      · cases carved
        have left : available - 2 * managed < Size.wordLimit :=
          Nat.lt_of_le_of_lt (Nat.sub_le _ _) word
        rw [Size.alignDown_heapAlignment left]
        simp only [Size.heapAlignment, Size.kib, ne_eq, Decidable.not_not] at aligned ⊢
        omega

/-- Where the hot partition is active, the sizes of the managed partitions and
of the non-profiled one are whole granules. -/
theorem aligned_of_options (segmented : ofOptions o = .ok s) :
    s.active = activeOf o ∧
      (s.isActive .hot = true → ∀ p, p.isManaged = true ∨ p = .nonProfiled →
        s.capacity p % Size.heapAlignment = 0 ∧ s.capacity p < Size.wordLimit) := by
  unfold ofOptions at segmented
  dsimp only at segmented
  split at segmented
  · cases carved : carve o.nonProfiledSize.toNat o.hotHeap with
    | error fault =>
        rw [carved] at segmented
        contradiction
    | ok remaining =>
        rw [carved] at segmented
        cases segmented
        have word : o.nonProfiledSize.toNat < Size.wordLimit := o.nonProfiledSize.toNat_lt
        rcases aligned_of_carve word carved with ⟨managed, managedWord, rest, restWord⟩
        refine ⟨rfl, ?_⟩
        rintro _ p (isManaged | rfl)
        · cases p <;> first | contradiction | exact ⟨managed, managedWord⟩
        · exact ⟨rest, restWord⟩
  · rename_i inactive
    cases segmented
    exact ⟨rfl, fun active => absurd active inactive⟩

/-- Code of a partition that methods are moved into overflows into the fallback
partition only. -/
theorem Routable.allocationOrder {p q : Partition} (routable : s.Routable p)
    (member : q ∈ s.allocationOrder p) : q = p ∨ q = s.fallback := by
  rcases mem_allocationOrder_iff.mp member with ⟨active, same | isTarget⟩
  · exact Or.inl same
  · apply Or.inr
    rcases routable with managed | rfl
    · have outside : q = .nonProfiled := by
        revert managed isTarget
        cases p <;> simp [Partition.isManaged, Partition.overflowTargets]
      rw [fallback, if_pos (outside ▸ active)]
      exact outside
    · unfold fallback at isTarget
      split at isTarget <;> contradiction

/-- So it stays where methods are moved into. -/
theorem Routable.of_allocationOrder {p q : Partition} (routable : s.Routable p)
    (member : q ∈ s.allocationOrder p) : s.Routable q := by
  rcases routable.allocationOrder member with rfl | isFallback
  · exact routable
  · exact Or.inr isFallback

end Segmentation

namespace Cache

/-- The heaps are those that the segmentation calls for, and those that
reordering uses are backed. -/
structure Usable (c : Cache) : Prop where
  active : c.sites.map Heap.Site.partition = c.segmentation.active.toList
  together : c.segmentation.isActive .tmp = c.segmentation.isActive .hot
  outside : c.segmentation.isActive .hot = true → c.segmentation.isActive .nonProfiled = true
  backed : c.segmentation.isActive .hot = true → ∀ s ∈ c.sites,
    s.partition.isManaged = true ∨ s.partition = .nonProfiled →
      s.Backed ∧ s.capacity = c.segmentation.capacity s.partition

namespace Usable

variable {c after : Cache} {p : Partition}

theorem of_sites (usable : c.Usable) (segmentation : after.segmentation = c.segmentation)
    (sites : after.sites = c.sites) : after.Usable := by
  constructor
  · rw [sites, segmentation]
    exact usable.active
  · rw [segmentation]
    exact usable.together
  · rw [segmentation]
    exact usable.outside
  · rw [sites, segmentation]
    exact usable.backed

theorem fallback_eq (usable : c.Usable) (active : c.segmentation.isActive .hot = true) :
    c.segmentation.fallback = .nonProfiled :=
  if_pos (usable.outside active)

/-- Where the hot partition is active, the partitions that methods are moved into
are active. -/
theorem isActive_of_routable (usable : c.Usable) (active : c.segmentation.isActive .hot = true)
    (routable : c.segmentation.Routable p) : c.segmentation.isActive p = true := by
  rcases routable with managed | rfl
  · exact Segmentation.isActive_of_isManaged active (usable.together.trans active) managed
  · rw [usable.fallback_eq active]
    exact usable.outside active

theorem exists_site (usable : c.Usable) (isActive : c.segmentation.isActive p = true) :
    ∃ s ∈ c.sites, s.partition = p := by
  have listed := Segmentation.mem_active isActive
  rw [← usable.active] at listed
  exact List.mem_map.mp listed

/-- The partitions that methods are moved into have heaps of the planned size. -/
theorem site_of_routable (usable : c.Usable) (active : c.segmentation.isActive .hot = true)
    (routable : c.segmentation.Routable p) :
    ∃ s ∈ c.sites, s.partition = p ∧ s.Backed ∧ s.capacity = c.segmentation.capacity p := by
  rcases usable.exists_site (usable.isActive_of_routable active routable) with ⟨s, isSite, rfl⟩
  rw [Segmentation.Routable, usable.fallback_eq active] at routable
  rcases usable.backed active s isSite routable with ⟨backed, capacity⟩
  exact ⟨s, isSite, rfl, backed, capacity⟩

theorem ready (usable : c.Usable) (active : c.segmentation.isActive .hot = true)
    (routable : c.segmentation.Routable p) : c.Ready p := by
  rcases usable.site_of_routable active routable with ⟨s, isSite, isHere, backed, _⟩
  exact ⟨s, isSite, isHere, backed⟩

/-- The heaps of the managed partitions are backed, so they are tidy. -/
theorem tidy (usable : c.Usable) (tidy : c.Tidy) {h : Heap} (isHeap : h ∈ c.heaps)
    (managed : h.partition.isManaged = true) : h.Tidy := by
  have isSite : h.site ∈ c.sites := List.mem_map_of_mem isHeap
  have isActive : c.segmentation.isActive h.partition = true := by
    have listed : h.partition ∈ c.sites.map Heap.Site.partition := List.mem_map_of_mem isSite
    rw [usable.active] at listed
    exact (List.mem_filter.mp listed).2
  have active : c.segmentation.isActive .hot = true := by
    revert managed isActive
    cases h.partition <;> simp [Partition.isManaged, usable.together]
  exact tidy h isHeap (usable.backed active h.site isSite (Or.inl managed)).1

/-- Without a hot partition no code is in a managed partition. -/
theorem isManaged_eq_false (usable : c.Usable) (valid : c.Valid)
    (inactive : c.segmentation.isActive .hot = false) {b : Blob} (live : b ∈ c.blobs) :
    b.partition.isManaged = false := by
  rcases valid.exists_heap live with ⟨h, found, isHeap, _⟩
  have isSite : b.partition ∈ c.sites.map Heap.Site.partition := by
    rw [← (mem_of_heap? found).2]
    exact List.mem_map_of_mem (List.mem_map_of_mem isHeap)
  rw [usable.active] at isSite
  have isActive : c.segmentation.isActive b.partition = true := (List.mem_filter.mp isSite).2
  have inactiveTmp := usable.together.trans inactive
  revert isActive
  cases b.partition <;> simp [Partition.isManaged, inactive, inactiveTmp]

end Usable

/-- A new cache is usable. -/
theorem usable_of_reserve {o : Options} {s : Segmentation} {host : Host} {c : Cache}
    (segmented : Segmentation.ofOptions o = .ok s) (reserved : reserve s host = .ok c) :
    c.Usable := by
  rcases tidy_of_reserve reserved with ⟨_, rfl, sites⟩
  rcases Segmentation.aligned_of_options segmented with ⟨active, aligned⟩
  rcases Segmentation.active_of_options o with ⟨together, outside⟩
  constructor
  · have partition : Heap.Site.partition ∘ (fun p => Heap.reservedSite host p
        (c.segmentation.capacity p)) = id := funext fun p => Heap.partition_reservedSite host p _
    rw [sites, List.map_map, partition, List.map_id]
  · simp only [Segmentation.isActive, active]
    exact together
  · simp only [Segmentation.isActive, active]
    exact outside
  · intro isActive site isSite used
    rw [sites] at isSite
    rcases List.mem_map.mp isSite with ⟨p, _, rfl⟩
    rw [Heap.partition_reservedSite] at used ⊢
    rcases aligned isActive p used with ⟨whole, word⟩
    exact Heap.backed_reservedSite word whole

end Cache

end CodeLayout
