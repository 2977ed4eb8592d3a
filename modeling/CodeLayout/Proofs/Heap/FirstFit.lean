import CodeLayout.Proofs.Heap.Requests
import Mathlib.Data.List.Sort

/-!
# First fit

Code goes to the front of the lowest free range that is long enough for it.  The
blobs of a heap determine its free ranges, which are the gaps between them, so it
does not matter how ranges were split and joined before: a release undoes the
allocation before it, two releases may be exchanged, and a heap that has lost all
its blobs is free in one piece again.
-/

namespace CodeLayout

namespace Extent

variable {need start : Nat} {free rest : List Extent} {e : Extent}

/-- What remains of a range when bytes are taken off its front. -/
def beyond (e : Extent) (need : Nat) : List Extent :=
  if need < e.length then [⟨e.offset + need, e.length - need⟩] else []

/-- Bytes are taken off the first range that has enough of them; all others stay. -/
theorem first_of_carve (carved : carve need free = some (start, rest)) :
    ∃ before e behind, free = before ++ e :: behind ∧ (∀ f ∈ before, f.length < need) ∧
      need ≤ e.length ∧ start = e.offset ∧ rest = before ++ (e.beyond need ++ behind) := by
  induction free generalizing rest with
  | nil => contradiction
  | cons e others inductionHypothesis =>
      rw [carve] at carved
      split at carved
      · rename_i enough
        cases carved
        exact ⟨[], e, others, rfl, by simp, enough, rfl, rfl⟩
      · rename_i short
        rcases Option.map_eq_some_iff.mp carved with ⟨⟨offset, left⟩, found, equal⟩
        cases equal
        rcases inductionHypothesis found with ⟨before, f, behind, rfl, tooShort, enough, rfl, rfl⟩
        refine ⟨e :: before, f, behind, rfl, ?_, enough, rfl, rfl⟩
        exact List.forall_mem_cons.mpr ⟨Nat.lt_of_not_le short, tooShort⟩

/-- A range that lies in front of another one is not behind it. -/
instance : Std.Antisymm fun e f : Extent => e.stop < f.offset where
  antisymm e f before behind := by
    simp only [stop] at before behind
    omega

instance : Std.Irrefl fun e f : Extent => e.stop < f.offset where
  irrefl e before := by
    simp only [stop] at before
    omega

end Extent

namespace Heap

variable {h after other : Heap} {m : Method} {code : ByteArray} {b c : Blob} {e : Extent}
  {host : Host} {p : Partition} {size : Nat}

/-! ## The blobs determine the free ranges -/

/-- Only the blobs and the ends of a heap decide what its gaps are. -/
theorem isGap_congr (base : other.base = h.base) (capacity : other.capacity = h.capacity)
    (blobs : other.blobs = h.blobs) : other.IsGap e ↔ h.IsGap e := by
  constructor
  · rintro ⟨positive, within, vacant, left, right⟩
    rw [base, blobs] at vacant left right
    rw [capacity] at within right
    exact ⟨positive, within, vacant, left, right⟩
  · rintro ⟨positive, within, vacant, left, right⟩
    rw [← base, ← blobs] at vacant left right
    rw [← capacity] at within right
    exact ⟨positive, within, vacant, left, right⟩

namespace Sound

/-- Heaps with the same blobs have the same free ranges. -/
theorem free_eq (sound : h.Sound) (soundToo : other.Sound) (base : other.base = h.base)
    (capacity : other.capacity = h.capacity) (blobs : other.blobs = h.blobs) :
    other.free = h.free := by
  apply soundToo.tidy.spaced.gaps.eq_of_mem_iff sound.tidy.spaced.gaps
  intro e
  rw [soundToo.valid.mem_free_iff soundToo.tidy, sound.valid.mem_free_iff sound.tidy]
  exact isGap_congr base capacity blobs

/-- Heaps with the same blobs have the same number of bytes in use. -/
theorem used_eq (sound : h.Sound) (soundToo : other.Sound) (blobs : other.blobs = h.blobs) :
    other.used = h.used := by
  rw [soundToo.tidy.used, sound.tidy.used, blobs]

/-- A heap without blobs is free in one piece, as long as it has any bytes. -/
theorem free_of_empty (sound : h.Sound) (empty : h.blobs = []) :
    h.free = if h.capacity = 0 then [] else [⟨0, h.capacity⟩] := by
  have gaps (e : Extent) : e ∈ h.free ↔ 0 < h.capacity ∧ e = ⟨0, h.capacity⟩ := by
    rw [sound.valid.mem_free_iff sound.tidy]
    constructor
    · rintro ⟨positive, within, _, left, right⟩
      simp only [empty, List.not_mem_nil, false_and, exists_false, or_false] at left right
      rcases e with ⟨offset, length⟩
      cases left
      simp only [Extent.stop, Nat.zero_add] at right
      cases right
      exact ⟨positive, rfl⟩
    · rintro ⟨positive, rfl⟩
      refine ⟨positive, ?_, by simp [empty], Or.inl rfl, Or.inl ?_⟩ <;> simp [Extent.stop]
  split
  · rename_i nothing
    apply List.eq_nil_iff_forall_not_mem.mpr
    intro e isFree
    rw [gaps, nothing] at isFree
    exact Nat.lt_irrefl 0 isFree.1
  · rename_i some
    apply sound.tidy.spaced.gaps.eq_of_mem_iff (List.pairwise_singleton _ _)
    intro e
    rw [gaps, List.mem_singleton]
    exact and_iff_right (Nat.pos_of_ne_zero some)

/-! ## Releases -/

/-- A blob that is live can be released. -/
theorem release_eq (sound : h.Sound) (live : b ∈ h.blobs) :
    h.release b.address = .ok (b, h.without b) :=
  (sound.valid.release_of_mem live).1

/-- A blob is taken out of the list in which it was put. -/
theorem filter_insertBlob {blobs : List Blob} (new : ∀ c ∈ blobs, c.address ≠ b.address) :
    (insertBlob b blobs).filter (fun c => c.address ≠ b.address) = blobs := by
  induction blobs with
  | nil => simp [insertBlob]
  | cons c rest inductionHypothesis =>
      rcases List.forall_mem_cons.mp new with ⟨differs, newInRest⟩
      have kept : rest.filter (fun c => c.address ≠ b.address) = rest := by
        simpa [List.filter_eq_self] using newInRest
      rw [insertBlob]
      split
      · simp only [List.filter_cons, kept]
        simp [differs]
      · simp only [List.filter_cons, inductionHypothesis newInRest]
        simp [differs]

/-- Releasing the blob that was allocated last restores what was free and what was
live. -/
theorem undone (sound : h.Sound) (allocated : h.allocate m code = (.ok b, after)) :
    after.release b.address = .ok (b, after.without b) ∧ (after.without b).free = h.free ∧
      (after.without b).blobs = h.blobs ∧ (after.without b).used = h.used := by
  have gains := sound.valid.allocated_of_allocate allocated
  have soundAfter := sound.allocate allocated
  have live : b ∈ after.blobs := gains.blobs.mem_iff.mpr List.mem_cons_self
  have soundLast := soundAfter.without live
  have blobs : (after.without b).blobs = h.blobs := by
    have nodup := soundAfter.valid.addresses_nodup
    rw [(gains.blobs.map Blob.address).nodup_iff, List.map_cons, List.nodup_cons] at nodup
    rcases allocate_eq_ok allocated with ⟨offset, free, memory, _, _, isBlob, rfl⟩
    exact filter_insertBlob fun c old equal => nodup.1 (List.mem_map.mpr ⟨c, old, equal⟩)
  have site := gains.site
  simp only [Heap.site, Site.mk.injEq] at site
  rcases site with ⟨_, base, capacity, _⟩
  exact ⟨soundAfter.release_eq live, sound.free_eq soundLast base capacity blobs, blobs,
    sound.used_eq soundLast blobs⟩

/-- Two releases may be exchanged. -/
theorem without_comm (sound : h.Sound) (first : b ∈ h.blobs) (second : c ∈ h.blobs)
    (differ : b.address ≠ c.address) : (h.without b).without c = (h.without c).without b := by
  have secondStays : c ∈ (h.without b).blobs :=
    List.mem_filter.mpr ⟨second, by simpa using differ.symm⟩
  have firstStays : b ∈ (h.without c).blobs := List.mem_filter.mpr ⟨first, by simpa using differ⟩
  have soundFirst := (sound.without first).without secondStays
  have soundSecond := (sound.without second).without firstStays
  have blobs : ((h.without b).without c).blobs = ((h.without c).without b).blobs :=
    List.filter_comm _ _ _
  have free := soundSecond.free_eq soundFirst rfl rfl blobs
  have used := soundSecond.used_eq soundFirst blobs
  calc
    (h.without b).without c = { h with
        free := ((h.without b).without c).free
        blobs := ((h.without b).without c).blobs
        used := ((h.without b).without c).used } := rfl
    _ = { h with
        free := ((h.without c).without b).free
        blobs := ((h.without c).without b).blobs
        used := ((h.without c).without b).used } := by rw [free, blobs, used]
    _ = (h.without c).without b := rfl

/-- Releasing all blobs, one after another, leaves the heap free in one piece. -/
theorem emptied (sound : h.Sound) {blobs : List Blob} (all : blobs.Perm h.blobs) :
    let last := h.serveAll (blobs.map fun b => .release b.address)
    last.free = (if h.capacity = 0 then [] else [⟨0, h.capacity⟩]) ∧ last.blobs = [] ∧
      last.used = 0 := by
  induction blobs generalizing h with
  | nil =>
      have empty := all.nil_eq.symm
      have unused : h.used = 0 := by simp [sound.tidy.used, empty]
      exact ⟨sound.free_of_empty empty, empty, unused⟩
  | cons b rest inductionHypothesis =>
      have live : b ∈ h.blobs := all.mem_iff.mp List.mem_cons_self
      have removed := perm_cons_filter sound.valid.addresses_nodup live
      have others : rest.Perm (h.without b).blobs := (all.trans removed).cons_inv
      have served : (h.serve (.release b.address)).2 = h.without b := by
        simp only [Heap.serve, sound.release_eq live]
      rw [List.map_cons, Heap.serveAll, List.foldl_cons, served]
      exact inductionHypothesis (sound.without live) others

end Sound

/-! ## The allocator -/

/-- How a heap grants room, and that it can take it back. -/
structure Reversible (h : Heap) : Prop where
  /-- Code that is held in memory is never longer than `Size.largest`. -/
  granted : ∀ (m : Method) (code : ByteArray), code.size ≤ Size.largest →
    ((∃ b after, h.allocate m code = (.ok b, after)) ↔ Size.padded code.size ≤ h.largestFree)
  /-- The code is at the front of a free range; all lower ones are too short. -/
  lowest : ∀ (m : Method) (code : ByteArray) (b : Blob) (after : Heap),
    h.allocate m code = (.ok b, after) →
      ∃ before e behind, h.free = before ++ e :: behind ∧ b.address = h.base + e.offset ∧
        Size.padded code.size ≤ e.length ∧ (∀ f ∈ before, f.length < Size.padded code.size) ∧
        (∀ f ∈ behind, e.offset < f.offset) ∧
        after.free = before ++ (e.beyond (Size.padded code.size) ++ behind)
  undone : ∀ (m : Method) (code : ByteArray) (b : Blob) (after : Heap),
    h.allocate m code = (.ok b, after) →
      ∃ last, after.release b.address = .ok (b, last) ∧ last.free = h.free ∧
        last.blobs = h.blobs ∧ last.used = h.used
  exchanged : ∀ b ∈ h.blobs, ∀ c ∈ h.blobs, b ≠ c →
    ∃ first second last, h.release b.address = .ok (b, first) ∧
      first.release c.address = .ok (c, last) ∧ h.release c.address = .ok (c, second) ∧
      second.release b.address = .ok (b, last)
  emptied : ∀ blobs : List Blob, blobs.Perm h.blobs →
    let last := h.serveAll (blobs.map fun b => .release b.address)
    last.free = (if h.capacity = 0 then [] else [⟨0, h.capacity⟩]) ∧ last.blobs = [] ∧
      last.used = 0

theorem Sound.reversible (sound : h.Sound) : h.Reversible where
  granted := by
    intro m code short
    constructor
    · rintro ⟨b, after, allocated⟩
      rcases allocate_eq_ok allocated with ⟨offset, free, memory, carved, _⟩
      exact Extent.le_longest_of_carve carved
    · exact sound.valid.allocate_of_room sound.backed (Size.short_of_le_largest short)
  lowest := by
    intro m code b after allocated
    rcases allocate_eq_ok allocated with ⟨offset, free, memory, carved, _, rfl, rfl⟩
    rcases Extent.first_of_carve carved with ⟨before, e, behind, split, tooShort, enough, rfl, rest⟩
    have spaced := sound.tidy.spaced.gaps
    rw [split] at spaced
    refine ⟨before, e, behind, split, rfl, enough, tooShort, ?_, rest⟩
    intro f isBehind
    have gap := List.rel_of_pairwise_cons (List.pairwise_append.mp spaced).2.1 isBehind
    exact Nat.lt_of_le_of_lt (Nat.le_add_right _ _) gap
  undone := fun _ _ _ _ allocated => ⟨_, sound.undone allocated⟩
  exchanged := by
    intro b first c second differ
    have apart : b.address ≠ c.address := fun equal =>
      differ (List.inj_on_of_nodup_map sound.valid.addresses_nodup first second equal)
    have secondStays : c ∈ (h.without b).blobs :=
      List.mem_filter.mpr ⟨second, by simpa using apart.symm⟩
    have firstStays : b ∈ (h.without c).blobs := List.mem_filter.mpr ⟨first, by simpa using apart⟩
    refine ⟨h.without b, h.without c, (h.without b).without c, sound.release_eq first,
      (sound.without first).release_eq secondStays, sound.release_eq second, ?_⟩
    rw [sound.without_comm first second apart]
    exact (sound.without second).release_eq firstStays
  emptied := fun _ all => sound.emptied all

/-- After any requests a reserved heap places code by first fit, exactly if the longest
free range is long enough, and what it has placed can be taken back without a trace: this
holds exactly if the pages of the heap can be counted in words. -/
theorem reversible_serveAll {start : Heap} (reserved : reserve host p size = .ok start) :
    (∀ requests, (start.serveAll requests).Reversible) ↔ host.Holds size := by
  constructor
  · intro kept
    apply Decidable.byContradiction
    intro wraps
    rcases allocate_of_wraps reserved wraps ⟨"", "", ""⟩ with ⟨room, text, after, failed, _⟩
    rcases ((kept []).granted _ oneByte (by decide)).mpr room with ⟨b, gained, allocated⟩
    cases failed.symm.trans allocated
  · intro whole requests
    exact ((sound_of_reserve reserved whole).serveAll requests).reversible

/-- A heap with a free range on either side of its blob. -/
theorem reversible_narrow :
    reserve oneHost .hot 300 = .ok narrowHeap ∧ oneHost.Holds 300 ∧
      (narrowHeap.serveAll backAndForth).free = [⟨0, 64⟩, ⟨128, 128⟩] ∧
      (narrowHeap.serveAll backAndForth).Reversible := by
  have whole : oneHost.Holds 300 := by decide
  exact ⟨reserved_narrowHeap, whole, by decide,
    (reversible_serveAll reserved_narrowHeap).mpr whole backAndForth⟩

/-- The largest heap has a free range for three bytes, and does not place them. -/
theorem not_reversible :
    reserve oneHost .hot (Size.wordLimit - 1) = .ok (hollowHeap .hot 4096) ∧
      Size.padded 3 ≤ (hollowHeap .hot 4096).largestFree ∧
      (hollowHeap .hot 4096).allocate ⟨"app/A", "a", "()V"⟩ ⟨#[0, 1, 2]⟩ =
        (.error (.internal "code write out of bounds: offset=0, len=3, size=0"),
          spoiltHeap .hot 4096) ∧
      ¬ (hollowHeap .hot 4096).Reversible := by
  have failed := allocate_hollowHeap .hot 4096 ⟨"app/A", "a", "()V"⟩
    (show (⟨#[0, 1, 2]⟩ : ByteArray).size = 3 from rfl)
  have room : Size.padded 3 ≤ (hollowHeap .hot 4096).largestFree := by decide
  refine ⟨reserved_hollowHeap, room, failed, ?_⟩
  intro reversible
  rcases (reversible.granted ⟨"app/A", "a", "()V"⟩ ⟨#[0, 1, 2]⟩ (by decide)).mpr room with
    ⟨b, after, allocated⟩
  cases failed.symm.trans allocated

end Heap

end CodeLayout
