import CodeLayout.Proofs.Cache.Allocation
import CodeLayout.Proofs.Placement.Lookup
import Mathlib.Logic.Function.Basic

/-!
# Placements that agree with the cache

Placements are held by a cache if their blobs are its live blobs, each one for
a method of its own, in the order of compilation.  `code` says for each method
what its code is.  Installing, unloading and moving code keep this, provided
that placements and cache are changed together.
-/

namespace CodeLayout.Placements

/-- The placements are those of the live blobs, each of which has the code of
its method. -/
structure Held (ps : Placements) (c : Cache) (code : Method → Option ByteArray) : Prop where
  stores : c.Stores (ps.map fun p => (p.blob, code p.method))
  methods : (ps.map Placement.method).Nodup
  owner : ∀ p ∈ ps, p.blob.method = p.method
  ascending : (ps.map Placement.compiled).Pairwise (· < ·)

namespace Held

variable {ps : Placements} {c gained after : Cache} {code : Method → Option ByteArray}
  {p placed : Placement} {m : Method} {bytes : ByteArray} {b : Blob}

theorem empty (valid : c.Valid) (noBlobs : c.blobs = []) (code : Method → Option ByteArray) :
    Held [] c code where
  stores := ⟨valid, by simp [noBlobs], by simp⟩
  methods := List.nodup_nil
  owner := by simp
  ascending := List.Pairwise.nil

theorem blobs (held : ps.Held c code) : c.blobs.Perm (ps.map Placement.blob) := by
  have blobs := held.stores.blobs
  rwa [List.map_map] at blobs

theorem live (held : ps.Held c code) (member : p ∈ ps) : p.blob ∈ c.blobs :=
  held.blobs.mem_iff.mpr (List.mem_map_of_mem member)

theorem code?_eq (held : ps.Held c code) (member : p ∈ ps) : c.code? p.blob = code p.method :=
  held.stores.code (p.blob, code p.method) (List.mem_map_of_mem member)

theorem find?_of_mem (held : ps.Held c code) (member : p ∈ ps) : ps.find? p.method = some p :=
  Placements.find?_of_mem held.methods member

/-- The blobs of a heap are those of the placements in its partition. -/
theorem heap_blobs (held : ps.Held c code) {q : Partition} {h : Heap}
    (found : c.heap? q = some h) :
    h.blobs.Perm ((ps.filter fun p => p.partition = q).map Placement.blob) := by
  have valid := held.stores.valid
  rcases Cache.mem_of_heap? found with ⟨isHeap, isHere⟩
  have nodup : (ps.map Placement.blob).Nodup := held.blobs.nodup_iff.mp valid.blobs_nodup
  apply (List.perm_ext_iff_of_nodup (.of_map _ (valid.heaps h isHeap).addresses_nodup)
    (nodup.sublist (List.filter_sublist.map _))).mpr
  intro b
  constructor
  · intro inHeap
    have live : b ∈ c.blobs := List.mem_flatMap.mpr ⟨h, isHeap, inHeap⟩
    rcases List.mem_map.mp (held.blobs.mem_iff.mp live) with ⟨p, member, rfl⟩
    have there : p.partition = q := ((valid.heaps h isHeap).owned p.blob inHeap).trans isHere
    exact List.mem_map_of_mem (List.mem_filter.mpr ⟨member, decide_eq_true there⟩)
  · intro isBlob
    rcases List.mem_map.mp isBlob with ⟨p, kept, rfl⟩
    rcases List.mem_filter.mp kept with ⟨member, there⟩
    rcases valid.exists_heap (held.live member) with ⟨k, foundToo, _, inHeap⟩
    have same : p.blob.partition = q := of_decide_eq_true there
    rw [same, found] at foundToo
    rwa [Option.some.inj foundToo]

/-! ## Changes of placements and cache -/

/-- Placements that differ in their ranks only are held as well. -/
theorem map (held : ps.Held c code) {change : Placement → Placement}
    (method : ∀ p, (change p).method = p.method) (blob : ∀ p, (change p).blob = p.blob)
    (compiled : ∀ p, (change p).compiled = p.compiled) :
    Held (ps.map change) c code where
  stores := by
    simpa only [List.map_map, Function.comp_def, method, blob] using held.stores
  methods := by
    simpa only [List.map_map, Function.comp_def, method] using held.methods
  owner := by
    intro p member
    rcases List.mem_map.mp member with ⟨q, old, rfl⟩
    rw [method, blob]
    exact held.owner q old
  ascending := by
    simpa only [List.map_map, Function.comp_def, compiled] using held.ascending

/-- Placements are held where a cache keeps all that it had. -/
theorem kept (held : ps.Held c code) (kept : Cache.Kept c after) : ps.Held after code :=
  ⟨held.stores.kept kept, held.methods, held.owner, held.ascending⟩

theorem erase (held : ps.Held c code) (found : ps.find? m = some placed)
    (lost : Cache.Lost c after placed.blob) : Held (ps.erase m) after code where
  stores := (held.stores.of_perm ((perm_erase held.methods found).map _)).lose lost
  methods := held.methods.sublist (List.filter_sublist.map _)
  owner p kept := held.owner p (List.mem_of_mem_filter kept)
  ascending := held.ascending.sublist (List.filter_sublist.map _)

/-- The placement of newly installed code goes to the end; an earlier one of the
same method is taken out. -/
theorem install (held : ps.Held c code) (isMethod : b.method = m) {number : Nat}
    (stores : after.Stores ((b, some bytes) ::
      (ps.erase m).map fun p => (p.blob, code p.method)))
    (newest : ∀ p ∈ ps, p.compiled < number) :
    Held (ps.erase m ++ [⟨m, b, none, number⟩]) after (Function.update code m (some bytes)) := by
  have others : ∀ p ∈ ps.erase m, p.method ≠ m := by
    intro p kept
    simpa using (List.mem_filter.mp kept).2
  have isSublist : (ps.erase m).Sublist ps := List.filter_sublist
  constructor
  · apply stores.of_perm
    have same : ((ps.erase m).map fun p => (p.blob, Function.update code m (some bytes) p.method)) =
        (ps.erase m).map fun p => (p.blob, code p.method) := by
      apply List.map_congr_left
      intro p member
      rw [Function.update_of_ne (others p member)]
    rw [List.map_append, same, List.map_singleton, Function.update_self]
    exact (List.perm_append_singleton _ _).symm
  · rw [List.map_append, List.map_singleton, ← List.concat_eq_append]
    apply (held.methods.sublist (isSublist.map _)).concat
    intro isOld
    rcases List.mem_map.mp isOld with ⟨p, member, same⟩
    exact others p member same
  · intro p member
    rcases List.mem_append.mp member with old | new
    · exact held.owner p (isSublist.subset old)
    · rw [List.mem_singleton.mp new]
      exact isMethod
  · rw [List.map_append, List.pairwise_append]
    have earlier : ∀ n ∈ (ps.erase m).map Placement.compiled,
        ∀ k ∈ [number], n < k := by
      intro n isOld k isNew
      rcases List.mem_map.mp isOld with ⟨p, member, rfl⟩
      rw [List.mem_singleton.mp isNew]
      exact newest p (isSublist.subset member)
    exact ⟨held.ascending.sublist (isSublist.map _), List.pairwise_singleton _ _, earlier⟩

/-- Code is copied to another place, where it stays the code of its method, and
released at the old one. -/
theorem put (held : ps.Held c code) (found : ps.find? m = some placed)
    (isCode : c.code? placed.blob = some bytes) (gain : Cache.Gained c gained m bytes b)
    (lost : Cache.Lost gained after placed.blob) :
    Held (ps.put { placed with blob := b }) after code := by
  rcases mem_of_find? found with ⟨member, rfl⟩
  obtain ⟨before, rest, split, putSplit⟩ :=
    put_eq (q := { placed with blob := b }) found
  have ofMethod : code placed.method = some bytes := (held.code?_eq member).symm.trans isCode
  rw [putSplit]
  rw [split] at held
  constructor
  · have stores := held.stores.of_perm (List.perm_middle.map _)
    have exchanged := stores.exchange gain lost
    rw [← ofMethod] at exchanged
    have toFront : List.Perm (before ++ { placed with blob := b } :: rest)
        ({ placed with blob := b } :: (before ++ rest)) := List.perm_middle
    exact exchanged.of_perm (toFront.symm.map fun p : Placement => (p.blob, code p.method))
  · simpa only [List.map_append, List.map_cons] using held.methods
  · intro p isPlacement
    rcases List.mem_append.mp isPlacement with first | last
    · exact held.owner p (List.mem_append_left _ first)
    · rcases List.mem_cons.mp last with rfl | inRest
      · exact gain.method
      · exact held.owner p (List.mem_append_right _ (List.mem_cons_of_mem _ inRest))
  · simpa only [List.map_append, List.map_cons] using held.ascending

end Held

end CodeLayout.Placements
