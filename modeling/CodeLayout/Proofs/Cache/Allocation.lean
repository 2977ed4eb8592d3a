import CodeLayout.Proofs.Cache.Valid

/-!
# Allocation in a cache

What a heap gains or loses the whole cache gains or loses: the other heaps are
left alone.  A search over several partitions ends in one of them, or reports
every full heap that it passed.  One that fails leaves all blobs and their code in place.
-/

namespace CodeLayout

/-- The partitions that are active are listed. -/
theorem Segmentation.mem_active {s : Segmentation} {p : Partition} (active : s.isActive p = true) :
    p ∈ s.active.toList :=
  List.mem_filter.mpr ⟨by cases p <;> decide, active⟩

/-- Code may be allocated in the active ones among a partition and its overflow
targets. -/
theorem Segmentation.mem_allocationOrder_iff {s : Segmentation} {p q : Partition} :
    q ∈ s.allocationOrder p ↔ s.isActive q = true ∧ (q = p ∨ q ∈ p.overflowTargets) := by
  rw [allocationOrder]
  split
  · rename_i active
    rw [List.mem_cons, overflowChain, List.mem_filter]
    constructor
    · rintro (rfl | ⟨isTarget, activeTarget⟩)
      · exact ⟨active, Or.inl rfl⟩
      · exact ⟨activeTarget, Or.inr isTarget⟩
    · rintro ⟨activeToo, rfl | isTarget⟩
      · exact Or.inl rfl
      · exact Or.inr ⟨isTarget, activeToo⟩
  · rename_i inactive
    rw [overflowChain, List.mem_filter]
    constructor
    · rintro ⟨isTarget, activeTarget⟩
      exact ⟨activeTarget, Or.inr isTarget⟩
    · rintro ⟨active, rfl | isTarget⟩
      · contradiction
      · exact ⟨isTarget, active⟩

namespace Cache

/-- The cache gained a blob that holds the code. -/
structure Gained (c after : Cache) (m : Method) (code : ByteArray) (b : Blob) : Prop where
  method : b.method = m
  size : b.size = code.size
  segmentation : after.segmentation = c.segmentation
  sites : after.sites = c.sites
  valid : after.Valid
  blobs : after.blobs.Perm (b :: c.blobs)
  code : after.code? b = some code
  kept : ∀ d ∈ c.blobs, after.code? d = c.code? d

/-- The cache has all that it had, but for some free bytes. -/
structure Kept (c after : Cache) : Prop where
  segmentation : after.segmentation = c.segmentation
  sites : after.sites = c.sites
  valid : after.Valid
  blobs : after.blobs = c.blobs
  code : ∀ d, after.code? d = c.code? d

/-- The cache lost a blob. -/
structure Lost (c after : Cache) (b : Blob) : Prop where
  segmentation : after.segmentation = c.segmentation
  sites : after.sites = c.sites
  valid : after.Valid
  blobs : c.blobs.Perm (b :: after.blobs)
  kept : ∀ d ∈ after.blobs, after.code? d = c.code? d

/-! ## Putting a heap in the place of another one -/

theorem heap?_put (c : Cache) (k : Heap) (p : Partition) :
    (c.put k).heap? p =
      (c.heap? p).map fun h => if h.partition = k.partition then k else h := by
  have samePartition (h : Heap) :
      (if h.partition = k.partition then k else h).partition = h.partition := by
    split
    · rename_i same
      exact same.symm
    · rfl
  simp only [heap?, put, List.find?_map, Function.comp_def, samePartition]

/-- A heap that is found in a cache is one of its heaps. -/
theorem mem_of_heap? {c : Cache} {p : Partition} {h : Heap} (found : c.heap? p = some h) :
    h ∈ c.heaps ∧ h.partition = p :=
  ⟨List.mem_of_find?_eq_some found, by simpa using List.find?_some found⟩

namespace Valid

variable {c : Cache} {h k : Heap}

/-- Replacing a heap leaves the heaps before and after it alone. -/
theorem put_eq (valid : c.Valid) (member : h ∈ c.heaps) (same : k.partition = h.partition) :
    ∃ before rest, c.heaps = before ++ h :: rest ∧ (c.put k).heaps = before ++ k :: rest := by
  rcases List.append_of_mem member with ⟨before, rest, split⟩
  have distinct := valid.distinct
  rw [split] at distinct
  have others (g : Heap) (around : g ∈ before ∨ g ∈ rest) : g.partition ≠ k.partition := by
    rw [same]
    exact key_ne_of_nodup distinct around
  have kept (heaps : List Heap) (away : ∀ g ∈ heaps, g.partition ≠ k.partition) :
      (heaps.map fun g => if g.partition = k.partition then k else g) = heaps :=
    (List.map_congr_left fun g inHeaps => if_neg (away g inHeaps)).trans (List.map_id _)
  have putSplit : (c.put k).heaps = before ++ k :: rest := by
    rw [put, split, List.map_append, List.map_cons, if_pos same.symm,
      kept before fun g first => others g (Or.inl first),
      kept rest fun g last => others g (Or.inr last)]
  exact ⟨before, rest, split, putSplit⟩

theorem put_valid (valid : c.Valid) (member : h ∈ c.heaps) (site : k.site = h.site)
    (validHeap : k.Valid) : (c.put k).Valid ∧ (c.put k).sites = c.sites := by
  have same : k.partition = h.partition := congrArg Heap.Site.partition site
  rcases valid.put_eq member same with ⟨before, rest, split, putSplit⟩
  constructor
  · constructor
    · intro g isHeap
      rw [putSplit] at isHeap
      rcases List.mem_append.mp isHeap with first | last
      · apply valid.heaps g
        rw [split]
        exact List.mem_append_left _ first
      · rcases List.mem_cons.mp last with rfl | inRest
        · exact validHeap
        · apply valid.heaps g
          rw [split]
          exact List.mem_append_right _ (List.mem_cons_of_mem _ inRest)
    · have distinct := valid.distinct
      rw [split] at distinct
      rw [putSplit]
      simpa only [List.map_append, List.map_cons, same] using distinct
  · simp only [sites, putSplit, split, List.map_append, List.map_cons, site]

/-- The blobs of the other heaps stay what they are when a heap is replaced. -/
theorem put_blobs (valid : c.Valid) (member : h ∈ c.heaps) (same : k.partition = h.partition) :
    ∃ others, c.blobs.Perm (h.blobs ++ others) ∧ (c.put k).blobs.Perm (k.blobs ++ others) := by
  rcases valid.put_eq member same with ⟨before, rest, split, putSplit⟩
  have moved (g : Heap) : ((before ++ g :: rest).flatMap Heap.blobs).Perm
      (g.blobs ++ (before ++ rest).flatMap Heap.blobs) :=
    List.Perm.flatMap_right Heap.blobs List.perm_middle
  exists (before ++ rest).flatMap Heap.blobs
  constructor
  · rw [blobs, split]
    exact moved h
  · rw [blobs, putSplit]
    exact moved k

/-- Code stays what it was, if it does so in the heap that is replaced. -/
theorem put_code? (valid : c.Valid) (member : h ∈ c.heaps) (same : k.partition = h.partition)
    {d : Blob} (kept : c.heap? d.partition = some h → k.code? d.address = h.code? d.address) :
    (c.put k).code? d = c.code? d := by
  rw [code?, code?, heap?_put]
  cases found : c.heap? d.partition with
  | none => rfl
  | some g =>
      by_cases replaced : g.partition = k.partition
      · have isReplaced : g = h :=
          List.inj_on_of_nodup_map valid.distinct (mem_of_heap? found).1 member
            (replaced.trans same)
        rw [Option.map_some, if_pos replaced, Option.bind_some, Option.bind_some, isReplaced]
        apply kept
        rw [found, isReplaced]
      · rw [Option.map_some, if_neg replaced]

/-- A heap is put in the place of itself. -/
theorem put_self (valid : c.Valid) (member : h ∈ c.heaps) : c.put h = c := by
  rcases valid.put_eq member rfl with ⟨before, rest, split, putSplit⟩
  have same : (c.put h).heaps = c.heaps := putSplit.trans split.symm
  calc
    c.put h = { c with heaps := (c.put h).heaps } := rfl
    _ = c := by rw [same]

end Valid

/-! ## Allocation in one partition -/

/-- An allocation that succeeds changes the heap of its partition. -/
theorem allocateExact_eq_ok {c after : Cache} {p : Partition} {m : Method} {code : ByteArray}
    {b : Blob} (allocated : c.allocateExact p m code = (.ok b, after)) :
    ∃ h k, c.heap? p = some h ∧ h.allocate m code = (.ok b, k) ∧ k.partition = p ∧
      after = c.put k := by
  rw [allocateExact] at allocated
  split at allocated
  · cases allocated
  · rename_i h found
    cases inHeap : h.allocate m code with
    | mk answer k =>
        rw [inHeap] at allocated
        cases allocated
        rcases Heap.allocate_eq_ok inHeap with ⟨_, _, _, _, _, _, rfl⟩
        exact ⟨h, _, found, inHeap, (mem_of_heap? found).2, rfl⟩

/-- One that fails has no heap to allocate in, or fails there. -/
theorem allocateExact_eq_error {c after : Cache} {p : Partition} {m : Method} {code : ByteArray}
    {fault : Fault} (failed : c.allocateExact p m code = (.error fault, after)) :
    (c.heap? p = none ∧ fault = .inactive p ∧ after = c) ∨
    ∃ h k, c.heap? p = some h ∧ h.allocate m code = (.error fault, k) ∧ after = c.put k := by
  rw [allocateExact] at failed
  split at failed
  · rename_i nothing
    cases failed
    exact Or.inl ⟨nothing, rfl, rfl⟩
  · rename_i h found
    cases inHeap : h.allocate m code with
    | mk answer k =>
        rw [inHeap] at failed
        cases failed
        exact Or.inr ⟨h, k, found, inHeap, rfl⟩

namespace Kept

theorem refl {c : Cache} (valid : c.Valid) : Kept c c :=
  ⟨rfl, rfl, valid, rfl, fun _ => rfl⟩

end Kept

namespace Valid

variable {c after : Cache} {p : Partition} {m : Method} {code : ByteArray} {b : Blob}

theorem gained_of_allocateExact (valid : c.Valid)
    (allocated : c.allocateExact p m code = (.ok b, after)) :
    Gained c after m code b ∧ b.partition = p := by
  rcases allocateExact_eq_ok allocated with ⟨h, k, found, inHeap, _, rfl⟩
  rcases mem_of_heap? found with ⟨member, partition⟩
  have gained := (valid.heaps h member).allocated_of_allocate inHeap
  have same : k.partition = h.partition := congrArg Heap.Site.partition gained.site
  rcases valid.put_valid member gained.site gained.valid with ⟨validAfter, sites⟩
  rcases valid.put_blobs member same with ⟨others, before, later⟩
  refine ⟨?_, gained.partition.trans partition⟩
  constructor
  · exact gained.method
  · exact gained.size
  · rfl
  · exact sites
  · exact validAfter
  · calc
      List.Perm (c.put k).blobs (k.blobs ++ others) := later
      List.Perm _ (b :: h.blobs ++ others) := gained.blobs.append_right others
      List.Perm _ (b :: c.blobs) := before.symm.cons b
  · rw [code?, heap?_put, gained.partition, partition, found, Option.map_some,
      if_pos same.symm]
    exact gained.code
  · intro d live
    apply valid.put_code? member same
    intro isHeap
    rcases valid.exists_heap live with ⟨g, found, _, inHeap⟩
    cases found.symm.trans isHeap
    exact gained.kept d inHeap

/-- A failure leaves what is stored alone; one for want of room changes nothing. -/
theorem kept_of_allocateExact (valid : c.Valid) {fault : Fault}
    (failed : c.allocateExact p m code = (.error fault, after)) :
    Kept c after ∧ (fault.isFull = true → after = c) := by
  rcases allocateExact_eq_error failed with ⟨_, _, rfl⟩ | ⟨h, k, found, inHeap, rfl⟩
  · exact ⟨.refl valid, fun _ => rfl⟩
  · rcases mem_of_heap? found with ⟨member, _⟩
    rcases Heap.allocate_eq_error inHeap with ⟨_, _, rfl⟩ | ⟨offset, free, carved, written, rfl⟩
    · rw [valid.put_self member]
      exact ⟨.refl valid, fun _ => rfl⟩
    · have validHeap := (valid.heaps h member).spoilt_valid carved
      rcases valid.put_valid (k := h.spoilt free) member rfl validHeap with ⟨validAfter, sites⟩
      rcases valid.put_eq (k := h.spoilt free) member rfl with ⟨before, rest, split, putSplit⟩
      constructor
      · constructor
        · rfl
        · exact sites
        · exact validAfter
        · rw [blobs, blobs, putSplit, split, List.flatMap_append, List.flatMap_append]
          rfl
        · exact fun d => valid.put_code? (k := h.spoilt free) member rfl fun _ => rfl
      · intro full
        rw [Memory.isFull_of_write written] at full
        contradiction

end Valid

/-! ## The search for room -/

/-- The partition has no room for the code. -/
def IsFull (c : Cache) (m : Method) (code : ByteArray) (p : Partition) : Prop :=
  ∃ fault, fault.isFull = true ∧ c.allocateExact p m code = (.error fault, c)

/-- How a search through partitions ends: in the first that is not full, or behind the last
one.  The full ones on its way are reported. -/
inductive Tried (c : Cache) (requested : Partition) (m : Method) (code : ByteArray)
    (order : List Partition) : Served → Prop
  | placed {before behind : List Partition} {p : Partition} {b : Blob} {after : Cache}
      (listed : order = before ++ p :: behind) (full : ∀ q ∈ before, c.IsFull m code q)
      (allocated : c.allocateExact p m code = (.ok b, after)) :
      Tried c requested m code order ⟨.ok b, after, before.map .heapFull⟩
  | failed {before behind : List Partition} {p : Partition} {fault : Fault} {after : Cache}
      (listed : order = before ++ p :: behind) (full : ∀ q ∈ before, c.IsFull m code q)
      (other : fault.isFull = false)
      (failed : c.allocateExact p m code = (.error fault, after)) :
      Tried c requested m code order ⟨.error fault, after, before.map .heapFull⟩
  | full (full : ∀ q ∈ order, c.IsFull m code q) :
      Tried c requested m code order
        ⟨.error (.full requested (Size.padded code.size)), c, order.map .heapFull⟩

/-- What a search for room comes to. -/
structure Searched (c : Cache) (order : List Partition) (m : Method) (code : ByteArray)
    (served : Served) : Prop where
  events : ∀ event ∈ served.events, ∃ p, event = .heapFull p
  found : ∀ b, served.answer = .ok b →
    ∃ p ∈ order, c.allocateExact p m code = (.ok b, served.cache)
  failed : ∀ fault, served.answer = .error fault →
    (fault.isFull = true ∨ order = []) ∧ served.cache = c ∨
    fault.isFull = false ∧ ∃ p ∈ order, c.allocateExact p m code = (.error fault, served.cache)

section Search

variable {c after : Cache} {order : List Partition} {requested : Partition} {m : Method}
  {code : ByteArray} {served : Served} {b : Blob}

theorem Valid.tried (valid : c.Valid) (order : List Partition) (requested : Partition)
    (m : Method) (code : ByteArray) :
    Tried c requested m code order (c.tryEach requested m code order) := by
  induction order with
  | nil => exact .full (by simp)
  | cons p rest inductionHypothesis =>
      rw [tryEach]
      split
      · rename_i b after allocated
        exact .placed (List.nil_append _).symm (by simp) allocated
      · rename_i fault after attempted
        split
        · rename_i isFull
          cases (valid.kept_of_allocateExact attempted).2 isFull
          have full : c.IsFull m code p := ⟨fault, isFull, attempted⟩
          -- The rest of the search goes on in the cache as it was.
          dsimp only
          generalize c.tryEach requested m code rest = served at inductionHypothesis
          cases inductionHypothesis with
          | placed listed fullBefore allocated =>
              exact .placed (congrArg (p :: ·) listed) (List.forall_mem_cons.mpr ⟨full, fullBefore⟩)
                allocated
          | failed listed fullBefore other failed =>
              exact .failed (congrArg (p :: ·) listed) (List.forall_mem_cons.mpr ⟨full, fullBefore⟩)
                other failed
          | full fullRest => exact .full (List.forall_mem_cons.mpr ⟨full, fullRest⟩)
        · rename_i other
          exact .failed (List.nil_append _).symm (by simp) (by simpa using other) attempted

theorem Tried.searched (tried : Tried c requested m code order served) :
    Searched c order m code served := by
  have reported (passed : List Partition) :
      ∀ event ∈ passed.map Event.heapFull, ∃ p, event = .heapFull p := by
    intro event member
    rcases List.mem_map.mp member with ⟨p, _, rfl⟩
    exact ⟨p, rfl⟩
  cases tried with
  | placed listed _ allocated =>
      refine ⟨reported _, ?_, nofun⟩
      rintro b ⟨⟩
      exact ⟨_, listed ▸ List.mem_append_right _ List.mem_cons_self, allocated⟩
  | failed listed _ other failed =>
      refine ⟨reported _, nofun, ?_⟩
      rintro fault ⟨⟩
      exact Or.inr ⟨other, _, listed ▸ List.mem_append_right _ List.mem_cons_self, failed⟩
  | full _ =>
      refine ⟨reported _, nofun, ?_⟩
      rintro fault ⟨⟩
      exact Or.inl ⟨Or.inl rfl, rfl⟩

theorem Valid.searched_allocateInOrder (valid : c.Valid) (order : List Partition)
    (requested : Partition) (m : Method) (code : ByteArray) :
    Searched c order m code (c.allocateInOrder order requested m code) := by
  rw [allocateInOrder]
  split
  · rename_i nothing
    exact ⟨by simp, nofun, fun fault _ => Or.inl ⟨Or.inr (List.isEmpty_iff.mp nothing), rfl⟩⟩
  · exact (valid.tried order requested m code).searched

theorem Valid.searched_allocate (valid : c.Valid) (p : Partition) (m : Method)
    (code : ByteArray) :
    Searched c (c.segmentation.allocationOrder p) m code (c.allocate p m code) :=
  valid.searched_allocateInOrder _ p m code

namespace Searched

/-- A search that succeeds ends in one of its partitions. -/
theorem gained (searched : Searched c order m code served) (valid : c.Valid)
    (found : served.answer = .ok b) : Gained c served.cache m code b ∧ b.partition ∈ order := by
  rcases searched.found b found with ⟨p, inOrder, allocated⟩
  rcases valid.gained_of_allocateExact allocated with ⟨gained, rfl⟩
  exact ⟨gained, inOrder⟩

/-- One that fails leaves what is stored alone, and changes nothing if it is for want of
room. -/
theorem kept (searched : Searched c order m code served) (valid : c.Valid) {fault : Fault}
    (failed : served.answer = .error fault) :
    Kept c served.cache ∧ (fault.isFull = true → served.cache = c) := by
  rcases searched.failed fault failed with ⟨_, same⟩ | ⟨other, p, _, attempted⟩
  · rw [same]
    exact ⟨.refl valid, fun _ => rfl⟩
  · exact valid.kept_of_allocateExact attempted

end Searched

end Search

/-! ## Release -/

namespace Valid

variable {c : Cache}

/-- A live blob can be released; this takes it out and leaves the others
alone. -/
theorem release_of_mem (valid : c.Valid) {b : Blob} (live : b ∈ c.blobs) :
    ∃ after, c.release b = .ok (b, after) ∧ Lost c after b := by
  rcases valid.exists_heap live with ⟨h, found, member, inHeap⟩
  rcases (valid.heaps h member).release_of_mem inHeap with ⟨isReleased, lost⟩
  have same : (h.without b).partition = h.partition := rfl
  rcases valid.put_valid member lost.site lost.valid with ⟨validAfter, sites⟩
  rcases valid.put_blobs member same with ⟨others, before, later⟩
  have blobs : c.blobs.Perm (b :: (c.put (h.without b)).blobs) := by
    calc
      List.Perm c.blobs (h.blobs ++ others) := before
      List.Perm _ (b :: (h.without b).blobs ++ others) := lost.blobs.append_right others
      List.Perm _ (b :: (c.put (h.without b)).blobs) := later.symm.cons b
  exists c.put (h.without b)
  constructor
  · simp only [release, found, isReleased]
    rfl
  · constructor
    · rfl
    · exact sites
    · exact validAfter
    · exact blobs
    · intro d live
      apply valid.put_code? member same
      intro isHeap
      rcases validAfter.exists_heap live with ⟨g, found, _, inHeap⟩
      rw [heap?_put, isHeap, Option.map_some, if_pos same.symm] at found
      cases found
      exact lost.kept d inHeap

end Valid

/-- What was live before other code was placed can still be released. -/
theorem Gained.release_of_mem {c gained : Cache} {m : Method} {code : ByteArray} {b d : Blob}
    (gain : Gained c gained m code b) (live : d ∈ c.blobs) :
    ∃ after, gained.release d = .ok (d, after) ∧ Lost gained after d :=
  gain.valid.release_of_mem (gain.blobs.mem_iff.mpr (List.mem_cons_of_mem b live))

/-- The cache gained a blob that holds the code and lost some others. -/
structure Exchanged (c after : Cache) (m : Method) (code : ByteArray) (b : Blob)
    (gone : List Blob) : Prop where
  method : b.method = m
  size : b.size = code.size
  new : b ∉ c.blobs
  segmentation : after.segmentation = c.segmentation
  sites : after.sites = c.sites
  valid : after.Valid
  blobs : (gone ++ after.blobs).Perm (b :: c.blobs)
  code : after.code? b = some code
  kept : ∀ d ∈ after.blobs, d ≠ b → after.code? d = c.code? d

namespace Gained

variable {c gained after : Cache} {m : Method} {code : ByteArray} {b d : Blob}

/-- What is gained was not there before. -/
theorem new (gain : Gained c gained m code b) : b ∉ c.blobs :=
  (List.nodup_cons.mp (gain.blobs.nodup_iff.mp gain.valid.blobs_nodup)).1

theorem exchanged (gain : Gained c gained m code b) : Exchanged c gained m code b [] where
  method := gain.method
  size := gain.size
  new := gain.new
  segmentation := gain.segmentation
  sites := gain.sites
  valid := gain.valid
  blobs := gain.blobs
  code := gain.code
  kept := by
    intro other live differs
    rcases List.mem_cons.mp (gain.blobs.mem_iff.mp live) with same | old
    · exact absurd same differs
    · exact gain.kept other old

/-- Other code is released once there is a place for the new one. -/
theorem exchanged_of_lost (gain : Gained c gained m code b) (live : d ∈ c.blobs)
    (lost : Lost gained after d) : Exchanged c after m code b [d] where
  method := gain.method
  size := gain.size
  new := gain.new
  segmentation := lost.segmentation.trans gain.segmentation
  sites := lost.sites.trans gain.sites
  valid := lost.valid
  blobs := lost.blobs.symm.trans gain.blobs
  code := by
    have isLive : b ∈ gained.blobs := gain.blobs.mem_iff.mpr List.mem_cons_self
    have stays : b ∈ after.blobs := by
      rcases List.mem_cons.mp (lost.blobs.mem_iff.mp isLive) with rfl | stays
      · exact absurd live gain.new
      · exact stays
    exact (lost.kept b stays).trans gain.code
  kept := by
    intro other stays differs
    have isLive : other ∈ gained.blobs := lost.blobs.mem_iff.mpr (List.mem_cons_of_mem d stays)
    exact (lost.kept other stays).trans (gain.exchanged.kept other isLive differs)

end Gained

/-! ## Contents -/

/-- The live blobs are those of a list, which also says what their code is. -/
structure Stores (c : Cache) (contents : List (Blob × Option ByteArray)) : Prop where
  valid : c.Valid
  blobs : c.blobs.Perm (contents.map Prod.fst)
  code : ∀ entry ∈ contents, c.code? entry.1 = entry.2

namespace Stores

variable {c after : Cache} {contents other : List (Blob × Option ByteArray)} {b : Blob}

theorem of_perm (stores : c.Stores contents) (same : contents.Perm other) : c.Stores other where
  valid := stores.valid
  blobs := stores.blobs.trans (same.map _)
  code entry member := stores.code entry (same.mem_iff.mpr member)

theorem kept (stores : c.Stores contents) (kept : Kept c after) : after.Stores contents where
  valid := kept.valid
  blobs := by
    rw [kept.blobs]
    exact stores.blobs
  code entry member := (kept.code entry.1).trans (stores.code entry member)

theorem live (stores : c.Stores contents) {entry : Blob × Option ByteArray}
    (member : entry ∈ contents) : entry.1 ∈ c.blobs :=
  stores.blobs.mem_iff.mpr (List.mem_map_of_mem member)

theorem lose {code : Option ByteArray} (stores : c.Stores ((b, code) :: contents))
    (lost : Lost c after b) : after.Stores contents := by
  have blobs : after.blobs.Perm (contents.map Prod.fst) :=
    (lost.blobs.symm.trans stores.blobs).cons_inv
  constructor
  · exact lost.valid
  · exact blobs
  · intro entry member
    have kept := lost.kept entry.1 (blobs.mem_iff.mpr (List.mem_map_of_mem member))
    exact kept.trans (stores.code entry (List.mem_cons_of_mem _ member))

/-- New code takes the place of old code. -/
theorem exchanged {old : List (Blob × Option ByteArray)} {m : Method} {code : ByteArray}
    (stores : c.Stores (old ++ contents))
    (exchanged : Exchanged c after m code b (old.map Prod.fst)) :
    after.Stores ((b, some code) :: contents) := by
  have blobs : after.blobs.Perm (b :: contents.map Prod.fst) := by
    apply (List.perm_append_left_iff (old.map Prod.fst)).mp
    have before := stores.blobs
    rw [List.map_append] at before
    exact (exchanged.blobs.trans (before.cons b)).trans List.perm_middle.symm
  constructor
  · exact exchanged.valid
  · exact blobs
  · intro entry member
    rcases List.mem_cons.mp member with rfl | stays
    · exact exchanged.code
    · have isOld := List.mem_append_right old stays
      have live : entry.1 ∈ after.blobs :=
        blobs.mem_iff.mpr (List.mem_cons_of_mem b (List.mem_map_of_mem stays))
      have differs : entry.1 ≠ b := fun same => exchanged.new (same ▸ stores.live isOld)
      exact (exchanged.kept entry.1 live differs).trans (stores.code entry isOld)

/-- New code that is placed before other code is released takes its place. -/
theorem exchange {gained : Cache} {d : Blob} {old : Option ByteArray} {m : Method}
    {code : ByteArray} (stores : c.Stores ((d, old) :: contents))
    (gain : Gained c gained m code b) (lost : Lost gained after d) :
    after.Stores ((b, some code) :: contents) := by
  have first : c.Stores ([(d, old)] ++ contents) := stores
  exact first.exchanged (gain.exchanged_of_lost (stores.live List.mem_cons_self) lost)

end Stores

end Cache

end CodeLayout
