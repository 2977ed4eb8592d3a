import CodeLayout.Proofs.Heap.Layout

/-!
# Requests to a heap

A heap serves one request after the other, whatever their order and whether or
not they succeed.  An allocation takes its range off the free ones before it writes the
code, so a write that fails leaves the range taken.  Where the memory reaches as far as the
heap no write fails, and a request that is refused changes nothing.

The memory is reserved in whole pages, and the rounding may leave the words.  Then there is
no memory at all for a heap that thinks of itself as all free, and its first request fails.
-/

namespace CodeLayout

/-- The memory for a heap of some size holds all of it: rounding to pages stays in the
words. -/
def Host.Holds (host : Host) (size : Nat) : Prop :=
  Size.alignDown size Size.segment + host.pageSize ≤ Size.wordLimit

instance (host : Host) (size : Nat) : Decidable (host.Holds size) :=
  Nat.decLe _ _

namespace Heap

variable {h after : Heap} {b : Blob} {host : Host} {p : Partition} {size : Nat} {m : Method}
  {code : ByteArray}

/-- What a heap is asked to do.  No code is longer than the largest size. -/
inductive Request where
  | allocate (method : Method) (code : ByteArray) (short : code.size ≤ Size.largest)
  | release (address : Nat)

/-- Serve a request. -/
def serve (h : Heap) : Request → Except Fault Blob × Heap
  | .allocate m code _ => h.allocate m code
  | .release address =>
    match h.release address with
    | .ok (blob, after) => (.ok blob, after)
    | .error fault => (.error fault, h)

/-- The heap after a list of requests. -/
def serveAll (h : Heap) (requests : List Request) : Heap :=
  requests.foldl (fun h request => (h.serve request).2) h

/-- A request that fails changes nothing. -/
def Atomic (h : Heap) : Prop :=
  ∀ request fault after, h.serve request = (.error fault, after) → after = h

/-! ## What requests preserve -/

/-- What holds of a heap from its reservation on. -/
structure Sound (h : Heap) : Prop where
  valid : h.Valid
  tidy : h.Tidy
  aligned : h.Aligned
  backed : h.site.Backed

theorem sound_of_reserve (reserved : reserve host p size = .ok h) (whole : host.Holds size) :
    h.Sound where
  valid := (valid_of_reserve reserved).1
  tidy := (tidy_of_reserve reserved).1
  aligned := aligned_of_reserve reserved
  backed := by
    rw [(tidy_of_reserve reserved).2]
    exact (backed_reservedSite_iff host p size).mpr whole

namespace Sound

theorem allocate (sound : h.Sound) (allocated : h.allocate m code = (.ok b, after)) :
    after.Sound where
  valid := sound.valid.allocate_valid allocated
  tidy := sound.tidy.allocate allocated
  aligned := sound.aligned.allocate allocated
  backed := by
    rw [(sound.valid.allocated_of_allocate allocated).site]
    exact sound.backed

theorem without (sound : h.Sound) (live : b ∈ h.blobs) : (h.without b).Sound where
  valid := sound.valid.without_valid live
  tidy := sound.tidy.without sound.valid live
  aligned := sound.aligned.without live
  backed := sound.backed

theorem atomic (sound : h.Sound) : h.Atomic := by
  intro request fault after refused
  cases request with
  | allocate m code short =>
      exact (sound.valid.allocate_of_error sound.backed (Size.short_of_le_largest short)
        refused).2
  | release address =>
      unfold serve at refused
      dsimp only at refused
      split at refused
      · cases refused
      · cases refused
        rfl

/-- Serving a request leaves a sound heap. -/
theorem serve (sound : h.Sound) (request : Request) : (h.serve request).2.Sound := by
  cases served : h.serve request with
  | mk answer after =>
      cases answer with
      | error fault =>
          rw [sound.atomic request fault after served]
          exact sound
      | ok b =>
          cases request with
          | allocate m code short => exact sound.allocate served
          | release address =>
              unfold Heap.serve at served
              dsimp only at served
              split at served
              · rename_i freed last released
                cases served
                rcases release_eq_ok released with ⟨live, _, rfl⟩
                exact sound.without live
              · cases served

theorem serveAll (sound : h.Sound) (requests : List Request) : (h.serveAll requests).Sound := by
  induction requests generalizing h with
  | nil => exact sound
  | cons request rest inductionHypothesis => exact inductionHypothesis (sound.serve request)

end Sound

/-! ## Heaps without memory -/

/-- Where there is no memory, code that finds room cannot be written, and what was to hold it
is no longer free. -/
theorem allocate_of_memoryless (memoryless : h.memory.size = 0) (some : 0 < code.size)
    (positive : 0 < Size.padded code.size) (room : Size.padded code.size ≤ h.largestFree) :
    ∃ text offset free, Extent.carve (Size.padded code.size) h.free = .some (offset, free) ∧
      h.allocate m code = (.error (.internal text), h.spoilt free) := by
  cases carved : Extent.carve (Size.padded code.size) h.free with
  | none =>
      have full := (Extent.carve_eq_none_iff positive).mp carved
      exact absurd room (Nat.not_le.mpr full)
  | some found =>
      rcases found with ⟨offset, free⟩
      have beyond : h.memory.size < offset + code.size := by omega
      simp only [allocate, carved, Memory.write, if_pos beyond]
      split
      · rename_i fault failed
        split at failed <;> cases failed <;> exact ⟨_, _, _, rfl, rfl⟩
      · rename_i memory written
        split at written <;> cases written

theorem spoilt_ne {need offset : Nat} {free : List Extent} (positive : 0 < need)
    (carved : Extent.carve need h.free = some (offset, free)) : h.spoilt free ≠ h := by
  intro same
  have taken := Extent.coverage_carve carved offset
  have covered : Extent.covers ⟨offset, need⟩ offset = true := by
    rw [Extent.covers_iff]
    exact ⟨Nat.le_refl _, Nat.lt_add_of_pos_right positive⟩
  have equal : free = h.free := congrArg Heap.free same
  rw [equal, if_pos covered] at taken
  omega

/-- A single byte of code. -/
def oneByte : ByteArray := ⟨#[0]⟩

/-- A heap whose size the rounding takes beyond the words has room, but no memory. -/
theorem allocate_of_wraps (reserved : reserve host p size = .ok h)
    (wraps : ¬ host.Holds size) (m : Method) :
    Size.padded oneByte.size ≤ h.largestFree ∧
      ∃ text after, h.allocate m oneByte = (.error (.internal text), after) ∧ after ≠ h := by
  have fits : host.pageSize ≤ Size.wordLimit := Nat.le_trans host.pageSize_le (by decide)
  have word : Size.alignDown size Size.segment < Size.wordLimit :=
    Nat.lt_of_le_of_lt Nat.and_le_right (by decide)
  have beyond := Nat.lt_of_not_le wraps
  have some : Size.alignDown size Size.segment ≠ 0 := by omega
  rcases reserve_eq_ok reserved with ⟨isSite, _, isHeap⟩
  have memoryless : h.memory.size = 0 := by
    have size := congrArg Site.memorySize isSite
    rw [reservedSite, if_neg some] at size
    exact size.trans (Size.wholePages_eq_zero host.isPower fits word beyond)
  have free : h.free = [⟨0, Size.alignDown size Size.segment⟩] := by
    rw [isHeap]
    exact if_neg some
  have segment : Size.segment ≤ Size.alignDown size Size.segment :=
    Nat.le_of_dvd (Nat.pos_of_ne_zero some) (Size.segment_dvd_alignDown size)
  have room : Size.padded oneByte.size ≤ h.largestFree := by
    rw [largestFree, free]
    exact Nat.le_trans (show Size.padded oneByte.size ≤ Size.segment by decide)
      (Nat.le_trans segment (Nat.le_max_right _ _))
  rcases allocate_of_memoryless (m := m) memoryless (by decide) (by decide) room with
    ⟨text, offset, free, carved, failed⟩
  exact ⟨room, text, _, failed, spoilt_ne (by decide) carved⟩

/-! ## The layout -/

/-- What the free ranges and the blobs of a heap are like. -/
structure Laid (h : Heap) : Prop where
  /-- The capacity, every offset and every length are multiples of a segment. -/
  aligned : h.Aligned
  above : ∀ b ∈ h.blobs, h.base ≤ b.address
  padded : ∀ b ∈ h.blobs, b.padded = Size.padded b.size
  positive : ∀ e ∈ h.pieces, 0 < e.length
  disjoint : h.pieces.Pairwise fun e f => ∀ x, ¬ (e.covers x = true ∧ f.covers x = true)
  tiled : ∀ x, (∃ e ∈ h.pieces, e.covers x = true) ↔ x < h.capacity
  /-- The free ranges ascend and no two of them touch. -/
  spaced : h.free.Pairwise fun e f => e.stop < f.offset
  maximal : ∀ e, e ∈ h.free ↔ h.IsGap e
  used : h.used = (h.blobs.map Blob.padded).sum
  unused : h.used = h.capacity - Extent.total h.free

theorem Sound.laid (sound : h.Sound) : h.Laid where
  aligned := sound.aligned
  above := sound.valid.above
  padded := sound.valid.padded
  positive := by
    intro e member
    rcases List.mem_append.mp member with isFree | isBlob
    · exact sound.tidy.spaced.positive e isFree
    · rcases List.mem_map.mp isBlob with ⟨b, live, rfl⟩
      exact sound.valid.padded_pos live
  disjoint := sound.valid.disjoint
  tiled := by
    intro x
    constructor
    · rintro ⟨e, member, covered⟩
      apply Nat.lt_of_not_le
      intro beyond
      have counted : 0 < Extent.coverage h.pieces x := List.countP_pos_iff.mpr ⟨e, member, covered⟩
      rw [sound.tidy.tiled, if_neg (Nat.not_lt.mpr beyond)] at counted
      contradiction
    · intro within
      have counted := sound.tidy.tiled x
      rw [if_pos within] at counted
      exact List.countP_pos_iff.mp (Nat.lt_of_lt_of_eq Nat.one_pos counted.symm)
  spaced := sound.tidy.spaced.gaps
  maximal _ := sound.valid.mem_free_iff sound.tidy
  used := sound.tidy.used
  unused := by
    have total := sound.tidy.total
    omega

/-- A reserved heap has, after any requests, a layout in which the free ranges
are exactly the gaps between the blobs, and a request that fails changes nothing: this holds
exactly if the pages of the heap can be counted in words. -/
theorem laid_serveAll (reserved : reserve host p size = .ok h) :
    (∀ requests, (h.serveAll requests).Laid ∧ (h.serveAll requests).Atomic) ↔
      host.Holds size := by
  constructor
  · intro kept
    apply Decidable.byContradiction
    intro wraps
    rcases (allocate_of_wraps reserved wraps ⟨"", "", ""⟩).2 with ⟨text, after, failed, differs⟩
    exact differs ((kept []).2 (.allocate _ oneByte (by decide)) _ after failed)
  · intro whole requests
    have sound := (sound_of_reserve reserved whole).serveAll requests
    exact ⟨sound.laid, sound.atomic⟩

/-- Four segments at an address. -/
def narrowHeap : Heap where
  partition := .hot
  base := 4096
  capacity := 256
  memory := ⟨4096, true, []⟩
  free := [⟨0, 256⟩]
  blobs := []
  used := 0

/-- Code comes and goes, and then an address is given back a second time. -/
def backAndForth : List Request :=
  [.allocate ⟨"Main", "first", "()V"⟩ ⟨#[1, 2, 3]⟩ (by decide),
    .allocate ⟨"Main", "second", "()V"⟩ ⟨#[4, 5]⟩ (by decide),
    .release 4096, .release 4096]

/-- A host that puts everything behind its first page. -/
def oneHost : Host := .ofBase fun _ => 4096

theorem reserved_narrowHeap : reserve oneHost .hot 300 = .ok narrowHeap :=
  rfl

theorem laid_narrow :
    reserve oneHost .hot 300 = .ok narrowHeap ∧ oneHost.Holds 300 ∧
      (narrowHeap.serveAll backAndForth).Laid ∧ (narrowHeap.serveAll backAndForth).Atomic := by
  have whole : oneHost.Holds 300 := by decide
  exact ⟨reserved_narrowHeap, whole, (laid_serveAll reserved_narrowHeap).mpr whole backAndForth⟩

/-- The largest heap that can be asked for: there is no memory for it. -/
def hollowHeap (p : Partition) (base : Nat) : Heap where
  partition := p
  base
  capacity := Size.wordLimit - Size.segment
  memory := ⟨0, true, []⟩
  free := [⟨0, Size.wordLimit - Size.segment⟩]
  blobs := []
  used := 0

/-- This heap when three bytes were to be written. -/
def spoiltHeap (p : Partition) (base : Nat) : Heap :=
  { hollowHeap p base with free := [⟨64, Size.wordLimit - 128⟩] }

theorem reserved_hollowHeap :
    reserve oneHost .hot (Size.wordLimit - 1) = .ok (hollowHeap .hot 4096) :=
  rfl

theorem allocate_hollowHeap (p : Partition) (base : Nat) (m : Method) (three : code.size = 3) :
    (hollowHeap p base).allocate m code =
      (.error (.internal "code write out of bounds: offset=0, len=3, size=0"),
        spoiltHeap p base) := by
  have digit {n : Nat} (small : n < 10) : Digits.text n = String.ofList [Digits.digitChar n] := by
    rw [Digits.text, Digits.render, if_pos small]
  have text : "code write out of bounds: offset=" ++ Digits.text 0 ++ ", len=" ++ Digits.text 3 ++
      ", size=" ++ Digits.text 0 = "code write out of bounds: offset=0, len=3, size=0" := by
    rw [digit (by decide), digit (by decide)]
    rfl
  have carved : Extent.carve (Size.padded 3) (hollowHeap p base).free =
      some (0, (spoiltHeap p base).free) := rfl
  have written : (hollowHeap p base).memory.write 0 code =
      .error (.internal "code write out of bounds: offset=0, len=3, size=0") := by
    rw [← text, Memory.write, three]
    rfl
  rw [allocate, three, carved]
  dsimp only
  rw [written]
  rfl

/-- In this heap a request fails and takes a segment off the free ones, which are no longer
all that no blob takes up. -/
theorem not_atomic :
    reserve oneHost .hot (Size.wordLimit - 1) = .ok (hollowHeap .hot 4096) ∧
      (hollowHeap .hot 4096).allocate ⟨"app/A", "a", "()V"⟩ ⟨#[0, 1, 2]⟩ =
        (.error (.internal "code write out of bounds: offset=0, len=3, size=0"),
          spoiltHeap .hot 4096) ∧
      (spoiltHeap .hot 4096).free = [⟨64, Size.wordLimit - 128⟩] ∧
      ¬ (spoiltHeap .hot 4096).Laid ∧ ¬ (hollowHeap .hot 4096).Atomic := by
  have failed := allocate_hollowHeap .hot 4096 ⟨"app/A", "a", "()V"⟩
    (show (⟨#[0, 1, 2]⟩ : ByteArray).size = 3 from rfl)
  refine ⟨reserved_hollowHeap, failed, rfl, fun laid => absurd laid.unused (by decide), ?_⟩
  intro atomic
  have same := atomic (.allocate ⟨"app/A", "a", "()V"⟩ ⟨#[0, 1, 2]⟩ (by decide)) _ _ failed
  exact absurd (congrArg Heap.free same) (by decide)

end Heap

end CodeLayout
