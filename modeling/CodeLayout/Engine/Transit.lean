import CodeLayout.Engine

/-!
# Moving code

The moves of a pass while they are carried out.  A move goes exactly where the
plan wants it as long as that is possible.  When nothing fits any more, two
remedies are tried before a move is given up:

* a managed heap whose free bytes would suffice, but lie apart, is compacted:
  its ranked residents leave for the fallback partition and queue up to come
  back in rank order;
* a method that waits inside a managed heap for its place in another one is
  parked in the fallback partition, which makes room where it was.

Each heap is compacted at most once and each method parked at most once, so
the work ends; `Transit.run` descends along exactly these two counts.
-/

namespace CodeLayout

/-- The state of a pass that moves code. -/
structure Transit where
  safepoint : Safepoint
  cache : Cache
  placements : Placements
  forwarding : Forwarding
  /-- Moves that are still to be made. -/
  pending : List Move
  /-- Methods that were parked. -/
  parked : List Method
  /-- Partitions that were compacted. -/
  compacted : List Partition
  /-- Methods that moved. -/
  moved : List Method
  bytesMoved : Nat
  evicted : Nat
  unplaced : Nat
  /-- Events of the pass, oldest first. -/
  events : List Event

namespace Transit

/-- The partition that a method is in. -/
def partitionOf? (t : Transit) (m : Method) : Option Partition :=
  (t.placements.find? m).map Placement.partition

/-- The partition for methods that leave the managed ones. -/
def fallback (t : Transit) : Partition :=
  t.cache.segmentation.fallback

/-- Find room in one partition, or in the first of several that has some.  Full
heaps are only reported where there is a choice. -/
def findRoom (c : Cache) (order : List Partition) (requested : Partition) (m : Method)
    (code : ByteArray) : Cache.Served :=
  match order with
  | [p] =>
    let (answer, cache) := c.allocateExact p m code
    ⟨answer, cache, []⟩
  | _ => c.allocateInOrder order requested m code

/-- Copy the code of a method to where there is room and release the old copy.
The result is the number of bytes copied. -/
def relocate (t : Transit) (m : Method) (order : List Partition) (requested : Partition) :
    Except Fault Nat × Transit :=
  if !t.safepoint.isReached then (.error (.relocationRace m.display), t)
  else match t.placements.find? m with
    | none => (.error (.unknownMethod m.display), t)
    | some placed =>
      match t.cache.code? placed.blob with
      | none => (.error (.internal ("no code for " ++ m.display)), t)
      | some code =>
        let served := findRoom t.cache order requested m code
        let t := { t with cache := served.cache, events := t.events ++ served.events }
        match served.answer with
        | .error fault => (.error fault, t)
        | .ok blob =>
          match t.cache.release placed.blob with
          | .error fault => (.error fault, t)
          | .ok (_, cache) =>
            (.ok blob.size,
              { t with
                cache
                placements := t.placements.put { placed with blob }
                forwarding := t.forwarding.add placed.blob.address blob.address
                events := t.events ++
                  [.methodRelocated m.display placed.partition blob.partition blob.size] })

/-- Note that a method moved. -/
def noteMoved (t : Transit) (m : Method) (bytes : Nat) : Transit :=
  { t with
    bytesMoved := t.bytesMoved + bytes
    moved := if t.moved.contains m then t.moved else t.moved ++ [m] }

/-- Note that a move was made exactly; one without a rank is an eviction. -/
def noteExact (t : Transit) (move : Move) (bytes : Nat) : Transit :=
  { t.noteMoved move.method bytes with
    evicted := if move.rank.isNone then t.evicted + 1 else t.evicted }

/-- What came of a sweep over the pending moves. -/
structure Sweep where
  transit : Transit
  /-- Moves for which there was no room. -/
  remaining : List Move
  /-- Some method moved. -/
  progress : Bool
  /-- A fault that ended the sweep. -/
  fault : Option Fault

/-- Make the moves of a list that can be made exactly.  A method that is in its
place needs no move. -/
def sweep (t : Transit) : List Move → Sweep
  | [] => ⟨t, [], false, none⟩
  | move :: rest =>
    if t.partitionOf? move.method = some move.target then sweep t rest
    else match t.relocate move.method [move.target] move.target with
      | (.ok bytes, t) => { sweep (t.noteExact move bytes) rest with progress := true }
      | (.error fault, t) =>
        if fault.isFull then
          let s := sweep t rest
          { s with remaining := move :: s.remaining }
        else ⟨t, move :: rest, false, some fault⟩

theorem sweep_remaining_sublist (t : Transit) (moves : List Move) :
    (t.sweep moves).remaining.Sublist moves := by
  induction moves generalizing t with
  | nil => exact List.Sublist.slnil
  | cons move rest inductionHypothesis =>
    rw [sweep]
    split
    · exact (inductionHypothesis t).cons move
    · split
      · exact (inductionHypothesis _).cons move
      · split
        · exact (inductionHypothesis _).cons_cons move
        · exact List.Sublist.refl _

/-- A sweep that moves something leaves fewer moves, unless a fault ends it. -/
theorem sweep_remaining_lt (t : Transit) (moves : List Move)
    (progress : (t.sweep moves).progress = true) :
    (t.sweep moves).fault ≠ none ∨ (t.sweep moves).remaining.length < moves.length := by
  induction moves generalizing t with
  | nil => simp [sweep] at progress
  | cons move rest inductionHypothesis =>
    rw [sweep] at progress ⊢
    split
    · rename_i inPlace
      rw [if_pos inPlace] at progress
      rcases inductionHypothesis t progress with ended | shorter
      · exact Or.inl ended
      · exact Or.inr (Nat.lt_succ_of_lt shorter)
    · rename_i elsewhere
      rw [if_neg elsewhere] at progress
      split
      · exact Or.inr (Nat.lt_succ_of_le (sweep_remaining_sublist _ _).length_le)
      · rename_i fault after relocated
        rw [relocated] at progress
        simp only at progress
        split
        · rename_i full
          rw [if_pos full] at progress
          rcases inductionHypothesis after progress with ended | shorter
          · exact Or.inl ended
          · exact Or.inr (Nat.succ_lt_succ shorter)
        · rename_i other
          rw [if_neg other] at progress
          simp at progress

/-- Sweep over moves until nothing moves any more. -/
def sweeps (t : Transit) (moves : List Move) : Sweep :=
  let s := t.sweep moves
  if _again : s.fault = none ∧ s.progress = true ∧ s.remaining ≠ [] then
    sweeps s.transit s.remaining
  else s
termination_by moves.length
decreasing_by
  rcases sweep_remaining_lt t moves _again.2.1 with ended | shorter
  · exact absurd _again.1 ended
  · exact shorter

/-- The free bytes of a partition would hold the method of a move, but no free
range does. -/
def isFragmentedFor (t : Transit) (move : Move) : Bool :=
  match t.placements.find? move.method, t.cache.freeBytes? move.target with
  | some placed, some free =>
    decide (placed.blob.padded ≤ free) &&
      decide (t.cache.largestFree move.target < placed.blob.padded)
  | _, _ => false

/-- The partition to compact: the target of the first pending move that
fragmentation holds up. -/
def fragmentedTarget (t : Transit) : Option Partition :=
  (t.pending.find? fun move =>
    move.target.isManaged && !t.compacted.contains move.target && t.isFragmentedFor move).map
    Move.target

/-- Ranked methods of a partition that do not wait for a move, in rank order. -/
def residents (t : Transit) (p : Partition) : List (Method × Nat) :=
  let settled := t.placements.filter fun placed =>
    placed.partition = p && !t.pending.any fun move => move.method = placed.method
  (settled.filterMap fun placed => placed.rank.map fun rank => (placed.method, rank)).mergeSort
    fun a b => decide (a.2 ≤ b.2)

/-- Send residents of a partition to the fallback partition and queue them to
come back, until one finds no room. -/
def displace (t : Transit) (p : Partition) : List (Method × Nat) → Except Fault Unit × Transit
  | [] => (.ok (), t)
  | (m, rank) :: rest =>
    match t.relocate m [t.fallback] t.fallback with
    | (.ok bytes, t) =>
      let t := t.noteMoved m bytes
      displace { t with pending := t.pending ++ [⟨m, t.fallback, p, some rank⟩] } p rest
    | (.error fault, t) => if fault.isFull then (.ok (), t) else (.error fault, t)

/-- Moves without a rank first, then by rank. -/
def Move.before (a b : Move) : Bool :=
  match a.rank, b.rank with
  | none, _ => true
  | some _, none => false
  | some r, some s => decide (r ≤ s)

/-- Empty a partition of its residents and put the pending moves in order. -/
def compact (t : Transit) (p : Partition) : Except Fault Unit × Transit :=
  let t := { t with compacted := p :: t.compacted }
  match t.displace p (t.residents p) with
  | (.ok (), t) => (.ok (), { t with pending := t.pending.mergeSort Move.before })
  | (.error fault, t) => (.error fault, t)

/-- The first method that waits inside a managed partition and may be
parked. -/
def parkable? (t : Transit) : Option Method :=
  (t.pending.find? fun move =>
    move.target ≠ t.fallback && !t.parked.contains move.method &&
      ((t.partitionOf? move.method).map Partition.isManaged).getD false).map Move.method

/-- Park a method in the fallback partition, if there is room. -/
def park (t : Transit) (m : Method) : Except Fault Unit × Transit :=
  let t := { t with parked := m :: t.parked }
  match t.relocate m [t.fallback] t.fallback with
  | (.ok bytes, t) => (.ok (), t.noteMoved m bytes)
  | (.error fault, t) => if fault.isFull then (.ok (), t) else (.error fault, t)

/-- Make the last moves wherever the target may overflow into; a method that
finds no room stays where it is and is reported. -/
def settle (t : Transit) : List Move → Except Fault Unit × Transit
  | [] => (.ok (), t)
  | move :: rest =>
    match t.placements.find? move.method with
    | none => settle t rest
    | some placed =>
      let order := (t.cache.segmentation.allocationOrder move.target).filter
        fun p => p ≠ placed.partition
      let (result, t) :=
        if order.isEmpty then (.error (.full move.target placed.blob.padded), t)
        else t.relocate move.method order move.target
      match result with
      | .ok bytes => settle (t.noteMoved move.method bytes) rest
      | .error fault =>
        if fault.isFull then
          settle
            { t with
              unplaced := t.unplaced + 1
              events := t.events ++
                [.placementFailed move.method.display move.target placed.blob.padded] }
            rest
        else (.error fault, t)

/-- What one round of moves leads to. -/
inductive Round where
  | again (t : Transit)
  | finished (t : Transit)
  | failed (fault : Fault) (t : Transit)

/-- Make all pending moves that can be made exactly; the others stay
pending. -/
def makeExact (t : Transit) : Option Fault × Transit :=
  let s := t.sweeps t.pending
  (s.fault, { s.transit with pending := s.remaining })

/-- What to do when no exact move is possible: the remedy that applies, or, if
none does, the last moves. -/
def remedy (t : Transit) : Round :=
  if t.pending.isEmpty then .finished t
  else match t.fragmentedTarget with
    | some p =>
      match t.compact p with
      | (.ok (), t) => .again t
      | (.error fault, t) => .failed fault t
    | none =>
      match t.parkable? with
      | some m =>
        match t.park m with
        | (.ok (), t) => .again t
        | (.error fault, t) => .failed fault t
      | none =>
        match settle { t with pending := [] } t.pending with
        | (.ok (), t) => .finished t
        | (.error fault, t) => .failed fault t

/-- One round: all exact moves, then what is to be done about the others. -/
def round (t : Transit) : Round :=
  match t.makeExact with
  | (none, t) => t.remedy
  | (some fault, t) => .failed fault t

end Transit

end CodeLayout
