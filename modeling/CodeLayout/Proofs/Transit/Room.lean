import CodeLayout.Proofs.Transit.Relocation

/-!
# Room for relocations

A relocation that succeeds is an exact allocation followed by a release.  At a
safepoint, a method that is installed is relocated into ready partitions unless
they are full; where there is one partition only, its longest free range
decides.
-/

namespace CodeLayout.Transit

variable {t after : Transit} {code : Method → Option ByteArray} {m : Method} {p q : Partition}
  {order : List Partition} {requested : Partition} {placed : Placement} {b : Blob}
  {cache : Cache} {bytes : ByteArray}

/-! ## Relocations that succeed -/

/-- What a relocation does that succeeds. -/
theorem relocate_eq_ok (held : t.Held code) {size : Nat}
    (made : t.relocate m order requested = (.ok size, after)) :
    ∃ placed b cache passed, after = t.movedTo placed b cache passed ∧ size = b.size ∧
      (∀ event ∈ passed, event.isQuiet = true) ∧ Exchanges t m order placed b cache := by
  rcases relocate_cases held m order requested with
    ⟨fault, failed, equal, _⟩ | ⟨placed, b, cache, passed, equal, quiet, exchanges⟩
  · cases equal.symm.trans made
  · cases equal.symm.trans made
    exact ⟨placed, b, cache, passed, rfl, rfl, quiet, exchanges⟩

/-- A relocation takes bytes off the free ranges of the target only. -/
theorem Exchanges.largestFree_le (exchanges : Exchanges t m order placed b cache)
    (q : Partition) :
    t.cache.largestFree q ≤
      cache.largestFree q + if q = b.partition then placed.blob.padded else 0 := by
  rcases exchanges.exchanged with ⟨bytes, gained, allocated, released⟩
  have taken := Cache.largestFree_of_allocateExact allocated q
  have given := Cache.largestFree_of_release released q
  rw [exchanges.padded] at taken
  omega

/-- The target has a free range that is long enough. -/
theorem Exchanges.fits (exchanges : Exchanges t m order placed b cache) :
    placed.blob.padded ≤ t.cache.largestFree b.partition := by
  rcases exchanges.exchanged with ⟨bytes, gained, allocated, _⟩
  rw [← exchanges.padded]
  exact Cache.le_largestFree_of_allocateExact allocated

/-- A heap that the code neither leaves nor enters stays as it is. -/
theorem Exchanges.heap?_eq (exchanges : Exchanges t m order placed b cache) {q : Partition}
    (source : q ≠ placed.partition) (goal : q ≠ b.partition) :
    cache.heap? q = t.cache.heap? q := by
  rcases exchanges.exchanged with ⟨bytes, gained, allocated, released⟩
  rw [Cache.heap?_of_release released source, Cache.heap?_of_allocateExact allocated goal]

/-- Only where the code leaves there may be more free ranges than before. -/
theorem Exchanges.pieces_le (exchanges : Exchanges t m order placed b cache) {q : Partition}
    (source : q ≠ placed.partition) : cache.pieces q ≤ t.cache.pieces q := by
  rcases exchanges.exchanged with ⟨bytes, gained, allocated, released⟩
  rw [Cache.pieces, Cache.heap?_of_release released source]
  exact Cache.pieces_of_allocateExact allocated q

/-- A last move either fails or ends in a partition in which its target may be
allocated. -/
theorem attempt_cases (held : t.Held code) {move : Move}
    (found : t.placements.find? move.method = some placed) :
    (∃ fault after, t.attempt move placed = (.error fault, after) ∧ Fails t fault after) ∨
    ∃ b cache passed, t.attempt move placed = (.ok b.size, t.movedTo placed b cache passed) ∧
      (∀ event ∈ passed, event.isQuiet = true) ∧
      Exchanges t move.method (t.lastOrder move placed) placed b cache := by
  unfold attempt
  split
  · exact Or.inl ⟨_, _, rfl, .refl held.stores.valid _⟩
  · rcases relocate_cases held move.method (t.lastOrder move placed) move.target with
      failing | ⟨other, b, cache, passed, equal, quiet, exchanges⟩
    · exact Or.inl failing
    · cases found.symm.trans exchanges.found
      exact Or.inr ⟨b, cache, passed, equal, quiet, exchanges⟩

/-- What a last move does that succeeds. -/
theorem attempt_eq_ok (held : t.Held code) {move : Move} {size : Nat}
    (found : t.placements.find? move.method = some placed)
    (made : t.attempt move placed = (.ok size, after)) :
    ∃ b cache passed, after = t.movedTo placed b cache passed ∧ size = b.size ∧
      (∀ event ∈ passed, event.isQuiet = true) ∧
      Exchanges t move.method (t.lastOrder move placed) placed b cache := by
  rcases attempt_cases held found with
    ⟨fault, left, equal, _⟩ | ⟨b, cache, passed, equal, quiet, exchanges⟩
  · cases equal.symm.trans made
  · cases equal.symm.trans made
    exact ⟨b, cache, passed, rfl, rfl, quiet, exchanges⟩

/-- A last move for which there is no room only logs the full heaps that it passed. -/
theorem attempt_eq_error (held : t.Held code) {move : Move} {fault : Fault}
    (found : t.placements.find? move.method = some placed)
    (failed : t.attempt move placed = (.error fault, after)) (isFull : fault.isFull = true) :
    ∃ passed, after = t.logged passed ∧ ∀ event ∈ passed, event.isQuiet = true := by
  rcases attempt_cases held found with ⟨_, _, equal, fails⟩ | ⟨_, _, _, equal, _⟩
  · cases equal.symm.trans failed
    exact fails.eq_logged isFull
  · cases equal.symm.trans failed

/-! ## Whether a relocation succeeds -/

/-- The code of an installed method is at hand, and is short. -/
theorem Held.exists_code (held : t.Held code) (member : placed ∈ t.placements) :
    ∃ bytes, t.cache.code? placed.blob = some bytes ∧
      bytes.size + Size.segment ≤ Size.wordLimit ∧
      Size.padded bytes.size = placed.blob.padded := by
  rcases held.stores.valid.exists_code (held.live member) with ⟨bytes, isCode⟩
  exact ⟨bytes, isCode, held.short_of_code? member isCode⟩

/-- An installed method is relocated into ready partitions unless they are
full. -/
theorem isFull_of_relocate (held : t.Held code) (reached : t.safepoint.isReached = true)
    (installed : ∃ placed ∈ t.placements, placed.method = m) (ready : ∀ p ∈ order, t.cache.Ready p)
    (some : order ≠ []) {fault : Fault}
    (failed : (t.relocate m order requested).1 = .error fault) : fault.isFull = true := by
  rcases installed with ⟨placed, member, rfl⟩
  rcases held.exists_code member with ⟨bytes, isCode, short, _⟩
  have valid := held.stores.valid
  have searched := searched_findRoom valid order requested placed.method bytes
  rw [relocate, if_neg (by simp [reached]), held.find?_of_mem member] at failed
  simp only [isCode] at failed
  generalize findRoom t.cache order requested placed.method bytes = served at searched failed
  split at failed
  · rename_i other isFault
    cases failed
    exact searched.isFull_of_ready valid ready some short isFault
  · rename_i b granted
    rcases (searched.gained valid granted).1.release_of_mem (held.live member) with ⟨_, released, _⟩
    rw [released] at failed
    cases failed

/-- Where the longest free range is long enough, there is room. -/
theorem relocate_of_room (held : t.Held code) (reached : t.safepoint.isReached = true)
    (member : placed ∈ t.placements) (ready : t.cache.Ready p)
    (room : placed.blob.padded ≤ t.cache.largestFree p) :
    ∃ size after, t.relocate placed.method [p] requested = (.ok size, after) := by
  rcases held.exists_code member with ⟨bytes, isCode, short, padded⟩
  rw [← padded] at room
  rcases held.stores.valid.allocateExact_of_room (m := placed.method) ready short room with
    ⟨b, gained, allocated⟩
  obtain ⟨gain, _⟩ := held.stores.valid.gained_of_allocateExact allocated
  rcases gain.release_of_mem (held.live member) with ⟨cache, released, _⟩
  rw [relocate, if_neg (by simp [reached]), held.find?_of_mem member]
  simp only [isCode, findRoom, allocated, released]
  exact ⟨_, _, rfl⟩

/-! ## Steps -/

/-- The cache changes by exact allocations and by releases only. -/
theorem relocate_evolves (held : t.Held code) (m : Method) (order : List Partition)
    (requested : Partition) : t.cache.Evolves (t.relocate m order requested).2.cache := by
  rcases relocate_cases held m order requested with
    ⟨fault, after, equal, fails⟩ | ⟨placed, b, cache, passed, equal, _, exchanges⟩
  · rw [equal]
    rcases fails with ⟨_, _, evolves, _⟩
    exact evolves
  · rw [equal]
    rcases exchanges.exchanged with ⟨bytes, gained, allocated, released⟩
    exact (Cache.Evolves.refl.allocate allocated).release released

theorem Steps.evolves (steps : Steps t after) (held : t.Held code) :
    t.cache.Evolves after.cache := by
  induction steps with
  | refl => exact .refl
  | relocate steps m order requested inductionHypothesis =>
      exact inductionHypothesis.trans (relocate_evolves (steps.held held).1 m order requested)
  | giveUp _ _ _ inductionHypothesis => exact inductionHypothesis
  | note _ same inductionHypothesis =>
      rw [same.cache]
      exact inductionHypothesis

end CodeLayout.Transit
