import CodeLayout.Proofs.Cache.Outline
import CodeLayout.Proofs.Transit.Reports

/-!
# Runs in outline

What a run does next depends on where the code is and on what is free, but not
on the bytes.  A scene is all that matters: whatever state it shows, a method
finds room exactly where the outline has a place, the same moves are held up,
and the same remedies apply.
-/

namespace CodeLayout

/-- All that decides what a run does next, and on whom it has given up. -/
structure Scene where
  placements : Placements
  outline : Outline
  pending : List Move
  parked : List Method
  compacted : List Partition
  moved : List Method
  /-- Methods that found no room, where they were to be, and their padded
  sizes. -/
  failures : List (Method × Partition × Nat)
deriving DecidableEq

namespace Scene

variable (s : Segmentation)

/-- What comes of sending an installed method to some active partitions: the
scene in which it is in the first one with a place for it, if there is one. -/
def send? (v : Scene) (m : Method) (order : List Partition) : Option (Option Scene) :=
  if order.all s.isActive && !order.isEmpty then
    (v.placements.find? m).map fun placed =>
      (v.outline.search? order m placed.size).map fun (b, next) =>
        { v with
          placements := v.placements.put { placed with blob := b }
          outline := next.vacate placed.blob }
  else none

theorem isEmpty_of_send {s : Segmentation} {v : Scene} {m : Method} {order : List Partition}
    {outcome : Option Scene} (sent : v.send? s m order = some outcome) :
    order.isEmpty = false := by
  unfold send? at sent
  split at sent
  · rename_i possible
    simp only [Bool.and_eq_true, Bool.not_eq_true'] at possible
    exact possible.2
  · contradiction

/-- Note that a method moved. -/
def note (v : Scene) (m : Method) : Scene :=
  { v with moved := if v.moved.contains m then v.moved else v.moved ++ [m] }

def partitionOf? (v : Scene) (m : Method) : Option Partition :=
  (v.placements.find? m).map Placement.partition

/-- The scene after a sweep, the moves that remain, and whether a method
moved. -/
def sweep? (v : Scene) : List Move → Option (Scene × List Move × Bool)
  | [] => some (v, [], false)
  | move :: rest =>
    if v.partitionOf? move.method = some move.target then v.sweep? rest
    else match v.send? s move.method [move.target] with
      | none => none
      | some none =>
        (v.sweep? rest).map fun (w, remaining, progress) => (w, move :: remaining, progress)
      | some (some w) =>
        ((w.note move.method).sweep? rest).map fun (u, remaining, _) => (u, remaining, true)

/-- Ranked methods of a partition that do not wait for a move, in rank order. -/
def residents (v : Scene) (p : Partition) : List (Method × Nat) :=
  let settled := v.placements.filter fun placed =>
    placed.partition = p && !v.pending.any fun move => move.method = placed.method
  (settled.filterMap fun placed => placed.rank.map fun rank => (placed.method, rank)).mergeSort
    fun a b => decide (a.2 ≤ b.2)

/-- The scene after residents of a partition were sent away. -/
def displace? (v : Scene) (p : Partition) : List (Method × Nat) → Option Scene
  | [] => some v
  | (m, rank) :: rest =>
    match v.send? s m [s.fallback] with
    | none => none
    | some none => some v
    | some (some w) =>
      displace? { w.note m with pending := w.pending ++ [⟨m, s.fallback, p, some rank⟩] } p rest

/-- The scene after the last moves. -/
def settle? (v : Scene) : List Move → Option Scene
  | [] => some v
  | move :: rest =>
    (v.placements.find? move.method).bind fun placed =>
      match v.send? s move.method
          ((s.allocationOrder move.target).filter fun p => p ≠ placed.partition) with
      | none => none
      | some none =>
        settle? { v with
          failures := v.failures ++ [(move.method, move.target, placed.blob.padded)] } rest
      | some (some w) => settle? (w.note move.method) rest

/-- The free bytes where a move leads would hold its method, but no free range
does. -/
def isFragmentedFor (v : Scene) (move : Move) : Bool :=
  match v.placements.find? move.method with
  | some placed =>
    decide (placed.blob.padded ≤ Extent.total (v.outline.free move.target)) &&
      decide (Extent.longest (v.outline.free move.target) < placed.blob.padded)
  | none => false

def fragmentedTarget (v : Scene) : Option Partition :=
  (v.pending.find? fun move =>
    move.target.isManaged && !v.compacted.contains move.target && v.isFragmentedFor move).map
    Move.target

def parkable? (v : Scene) : Option Method :=
  (v.pending.find? fun move =>
    move.target ≠ s.fallback && !v.parked.contains move.method &&
      ((v.partitionOf? move.method).map Partition.isManaged).getD false).map Move.method

/-- Sweeps are repeated until nothing moves any more. -/
inductive Swept : Scene → List Move → Scene → List Move → Prop
  | still {v w : Scene} {moves left : List Move}
      (swept : v.sweep? s moves = some (w, left, false)) : Swept v moves w left
  | through {v w : Scene} {moves : List Move}
      (swept : v.sweep? s moves = some (w, [], true)) : Swept v moves w []
  | again {v w last : Scene} {moves left rest : List Move}
      (swept : v.sweep? s moves = some (w, left, true)) (some : left ≠ [])
      (later : Swept w left last rest) : Swept v moves last rest

/-- The scene in which some moves are pending. -/
def waitingFor (v : Scene) (moves : List Move) : Scene :=
  { v with pending := moves }

/-- How a run goes from scene to scene, one round after another. -/
inductive Plays : Scene → Scene → Prop
  | finish {v w : Scene} (swept : Swept s v v.pending w []) : Plays v (w.waitingFor [])
  | compact {v w u last : Scene} {left moves : List Move} {p : Partition}
      (swept : Swept s v v.pending w left)
      (fragmented : (w.waitingFor left).fragmentedTarget = some p)
      {residents : List (Method × Nat)} (here : (w.waitingFor left).residents p = residents)
      (displaced : displace? s { w.waitingFor left with compacted := p :: w.compacted } p
        residents = some u)
      (sorted : u.pending.mergeSort Transit.Move.before = moves)
      (later : Plays (u.waitingFor moves) last) : Plays v last
  | park {v w u last : Scene} {left : List Move} {m : Method}
      (swept : Swept s v v.pending w left)
      (whole : (w.waitingFor left).fragmentedTarget = none)
      (parkable : (w.waitingFor left).parkable? s = some m)
      (sent : { w.waitingFor left with parked := m :: w.parked }.send? s m [s.fallback] =
        some (some u))
      (later : Plays (u.note m) last) : Plays v last
  | leave {v w last : Scene} {left : List Move} {m : Method}
      (swept : Swept s v v.pending w left)
      (whole : (w.waitingFor left).fragmentedTarget = none)
      (parkable : (w.waitingFor left).parkable? s = some m)
      (full : { w.waitingFor left with parked := m :: w.parked }.send? s m [s.fallback] =
        some none)
      (later : Plays { w.waitingFor left with parked := m :: w.parked } last) : Plays v last
  | settle {v w last : Scene} {left : List Move} (swept : Swept s v v.pending w left)
      (some : left ≠ []) (whole : (w.waitingFor left).fragmentedTarget = none)
      (parkable : (w.waitingFor left).parkable? s = none)
      (settled : (w.waitingFor []).settle? s left = .some last) : Plays v last

end Scene

namespace Transit

variable {t after : Transit} {s : Segmentation} {v w : Scene} {m : Method} {p q : Partition}
  {order : List Partition} {requested : Partition} {placed : Placement} {b : Blob}

/-- The report that a method found no room. -/
def failed (f : Method × Partition × Nat) : Event :=
  .placementFailed f.1.display f.2.1 f.2.2

/-- The state looks as a scene shows it. -/
structure Shows (t : Transit) (s : Segmentation) (v : Scene) : Prop where
  segmentation : t.cache.segmentation = s
  placements : t.placements = v.placements
  held : ∃ code, t.Held code
  reached : t.safepoint.isReached = true
  cache : t.cache.Outlined v.outline
  pending : t.pending = v.pending
  parked : t.parked = v.parked
  compacted : t.compacted = v.compacted
  moved : t.moved = v.moved
  failures : t.events.filter Event.isPlacementFailure = v.failures.map failed
  unplaced : t.unplaced = v.failures.length

/-- A search for room ends at the place that the outline has. -/
theorem findRoom_of_search {c : Cache} {o next : Outline} (outlined : c.Outlined o)
    (active : ∀ p ∈ order, c.segmentation.isActive p = true) (some : order ≠ [])
    {bytes : ByteArray} (short : bytes.size + Size.segment ≤ Size.wordLimit)
    (room : o.search? order m bytes.size = .some (b, next)) (requested : Partition) :
    (findRoom c order requested m bytes).answer = .ok b ∧
      (findRoom c order requested m bytes).cache.Outlined next := by
  unfold findRoom
  split
  · rename_i p
    have place : o.place? p m bytes.size = .some (b, next) := by
      rw [Outline.search?, List.findSome?_cons] at room
      split at room
      · rename_i found
        rw [found, room]
      · contradiction
    rcases outlined.allocateExact (active p List.mem_cons_self) short place with
      ⟨gained, allocated, drawn⟩
    rw [allocated]
    exact ⟨rfl, drawn⟩
  · rw [Cache.allocateInOrder, if_neg (fun empty => some (List.isEmpty_iff.mp empty))]
    exact outlined.tryEach active short room requested

namespace Shows

theorem isActive (shows : t.Shows s v) (active : order.all s.isActive = true) :
    ∀ p ∈ order, t.cache.segmentation.isActive p = true := by
  rw [shows.segmentation]
  exact List.all_eq_true.mp active

theorem partitionOf?_eq (shows : t.Shows s v) (m : Method) :
    t.partitionOf? m = v.partitionOf? m := by
  rw [partitionOf?, shows.placements, Scene.partitionOf?]

theorem fallback_eq (shows : t.Shows s v) : t.fallback = s.fallback := by
  rw [fallback, shows.segmentation]

/-- Heaps that are passed on the way do not change the scene. -/
theorem logged (shows : t.Shows s v) {passed : List Event}
    (quiet : ∀ event ∈ passed, event.isQuiet = true) : (t.logged passed).Shows s v := by
  refine { shows with failures := ?_ }
  rw [Transit.logged, List.filter_append, (Event.filter_quiet quiet).1, List.append_nil]
  exact shows.failures

/-- A method is sent as the scene says. -/
theorem relocate (shows : t.Shows s v) (sent : v.send? s m order = some (some w))
    (requested : Partition) :
    ∃ size after, t.relocate m order requested = (.ok size, after) ∧ after.Shows s w := by
  unfold Scene.send? at sent
  split at sent
  · rename_i possible
    rw [Bool.and_eq_true, Bool.not_eq_true', List.isEmpty_eq_false_iff] at possible
    rcases shows.held with ⟨code, held⟩
    rcases Option.map_eq_some_iff.mp sent with ⟨placed, found, found'⟩
    rcases Option.map_eq_some_iff.mp found' with ⟨⟨b, next⟩, room, rfl⟩
    have find := shows.placements ▸ found
    rcases Placements.mem_of_find? find with ⟨member, rfl⟩
    rcases held.exists_code member with ⟨bytes, isCode, short, _⟩
    have sameSize : bytes.size = placed.size :=
      held.stores.valid.code?_size (held.live member) isCode
    rw [← sameSize] at room
    rcases findRoom_of_search shows.cache (shows.isActive possible.1) possible.2 short room
      requested with ⟨granted, drawn⟩
    have searched := searched_findRoom held.stores.valid order requested placed.method bytes
    have live : placed.blob ∈ (findRoom t.cache order requested placed.method bytes).cache.blobs :=
      (searched.gained held.stores.valid granted).1.blobs.mem_iff.mpr
        (List.mem_cons_of_mem b (held.live member))
    rcases drawn.release live with ⟨cache, released, drawnAfter⟩
    have made : t.relocate placed.method order requested = (.ok b.size, t.movedTo placed b cache
        (findRoom t.cache order requested placed.method bytes).events) := by
      rw [Transit.relocate, if_neg (by simp [shows.reached]), find]
      simp only [isCode, granted, released, movedTo, List.append_assoc]
    have step := (Steps.of_relocate made).held held
    refine ⟨b.size, _, made, step.2.segmentation.trans shows.segmentation, ?_, ⟨code, step.1⟩,
      shows.reached, drawnAfter, shows.pending, shows.parked, shows.compacted, shows.moved, ?_,
      shows.unplaced⟩
    · rw [← shows.placements]
      rfl
    · have quiet : ∀ event ∈ (findRoom t.cache order requested placed.method bytes).events,
          event.isQuiet = true := by
        intro event isPassed
        rcases searched.events event isPassed with ⟨p, rfl⟩
        rfl
      rw [movedTo, List.filter_append, List.filter_append, (Event.filter_quiet quiet).1,
        shows.failures]
      exact List.append_nil _
  · contradiction

/-- A method that is not sent anywhere stays where it is. -/
theorem relocate_of_full (shows : t.Shows s v) (full : v.send? s m order = some none)
    (requested : Partition) :
    ∃ fault passed, t.relocate m order requested = (.error fault, t.logged passed) ∧
      fault.isFull = true ∧ ∀ event ∈ passed, event.isQuiet = true := by
  unfold Scene.send? at full
  split at full
  · rename_i possible
    rw [Bool.and_eq_true, Bool.not_eq_true', List.isEmpty_eq_false_iff] at possible
    rcases shows.held with ⟨code, held⟩
    rcases Option.map_eq_some_iff.mp full with ⟨placed, found, found'⟩
    have nowhere := Option.map_eq_none_iff.mp found'
    rcases Placements.mem_of_find? (shows.placements ▸ found) with ⟨member, rfl⟩
    rcases relocate_cases held placed.method order requested with
      ⟨fault, after, made, fails⟩ | ⟨there, b, cache, passed, made, _, exchanges⟩
    · have isFull := isFull_of_relocate held shows.reached ⟨placed, member, rfl⟩
        (fun p isHere => shows.cache.ready (shows.isActive possible.1 p isHere)) possible.2
        (congrArg Prod.fst made)
      rcases fails.eq_logged isFull with ⟨passed, rfl, quiet⟩
      exact ⟨fault, passed, made, isFull, quiet⟩
    · cases exchanges.found.symm.trans (held.find?_of_mem member)
      rcases exchanges.exchanged with ⟨bytes, gained, allocated, _⟩
      have size : bytes.size = placed.size := by
        rw [← (held.stores.valid.gained_of_allocateExact allocated).1.size, exchanges.size]
        rfl
      have noPlace := List.findSome?_eq_none_iff.mp nowhere b.partition exchanges.partition
      rcases held.exists_code member with ⟨bytes', isCode, short, _⟩
      have size' : bytes'.size = placed.size :=
        held.stores.valid.code?_size (held.live member) isCode
      rw [← size] at noPlace size'
      rw [shows.cache.allocateExact_of_full
        (shows.isActive possible.1 b.partition exchanges.partition) (size' ▸ short) noPlace]
        at allocated
      cases allocated
  · contradiction

theorem relocate_of_full_exact (shows : t.Shows s v) (full : v.send? s m [p] = some none)
    (requested : Partition) :
    ∃ fault, t.relocate m [p] requested = (.error fault, t) ∧ fault.isFull = true := by
  rcases shows.relocate_of_full full requested with ⟨fault, passed, made, isFull, _⟩
  rcases shows.held with ⟨code, held⟩
  have unchanged := relocate_eq_self held made isFull
  rw [unchanged] at made
  exact ⟨fault, made, isFull⟩

theorem note (shows : t.Shows s v) (m : Method) (size : Nat) :
    (t.noteMoved m size).Shows s (v.note m) := by
  refine { shows with moved := ?_ }
  rw [noteMoved, Scene.note, shows.moved]

theorem waitingFor (shows : t.Shows s v) (moves : List Move) :
    { t with pending := moves }.Shows s (v.waitingFor moves) :=
  { shows with pending := rfl }

theorem giveUp (shows : t.Shows s v) (move : Move) (placed : Placement) :
    (t.giveUp move placed).Shows s
      { v with failures := v.failures ++ [(move.method, move.target, placed.blob.padded)] } := by
  refine { shows with failures := ?_, unplaced := ?_ }
  · rw [Transit.giveUp, List.filter_append, shows.failures, List.map_append]
    rfl
  · rw [Transit.giveUp, shows.unplaced, List.length_append]
    rfl

/-! ## The loops -/

theorem sweep (shows : t.Shows s v) {moves left : List Move} {progress : Bool}
    (swept : v.sweep? s moves = some (w, left, progress)) :
    ∃ after, t.sweep moves = ⟨after, left, progress, none⟩ ∧ after.Shows s w := by
  induction moves generalizing t v w left progress with
  | nil =>
      cases swept
      exact ⟨t, rfl, shows⟩
  | cons move rest inductionHypothesis =>
      rw [Scene.sweep?, ← shows.partitionOf?_eq] at swept
      rw [Transit.sweep]
      split at swept
      · rename_i inPlace
        rw [if_pos inPlace]
        exact inductionHypothesis shows swept
      · rename_i elsewhere
        rw [if_neg elsewhere]
        split at swept
        · contradiction
        · rename_i full
          rcases Option.map_eq_some_iff.mp swept with ⟨⟨u, remaining, moves⟩, later, equal⟩
          cases equal
          rcases shows.relocate_of_full_exact full move.target with ⟨fault, made, isFull⟩
          rcases inductionHypothesis shows later with ⟨after, others, showsAfter⟩
          refine ⟨after, ?_, showsAfter⟩
          simp only [made, isFull, if_true, others]
        · rename_i u sent
          rcases Option.map_eq_some_iff.mp swept with ⟨⟨u', remaining, moves⟩, later, equal⟩
          cases equal
          rcases shows.relocate sent move.target with ⟨size, middle, made, showsMiddle⟩
          have noted : (middle.noteExact move size).Shows s (u.note move.method) :=
            { showsMiddle.note move.method size with }
          rcases inductionHypothesis noted later with ⟨after, others, showsAfter⟩
          refine ⟨after, ?_, showsAfter⟩
          simp only [made, others]

theorem sweeps (shows : t.Shows s v) {moves left : List Move}
    (swept : Scene.Swept s v moves w left) :
    ∃ after progress, t.sweeps moves = ⟨after, left, progress, none⟩ ∧ after.Shows s w := by
  induction swept generalizing t with
  | still swept =>
      rcases shows.sweep swept with ⟨after, made, showsAfter⟩
      refine ⟨after, false, ?_, showsAfter⟩
      rw [Transit.sweeps]
      simp [made]
  | through swept =>
      rcases shows.sweep swept with ⟨after, made, showsAfter⟩
      refine ⟨after, true, ?_, showsAfter⟩
      rw [Transit.sweeps]
      simp [made]
  | again swept some _ inductionHypothesis =>
      rcases shows.sweep swept with ⟨middle, made, showsMiddle⟩
      rcases inductionHypothesis showsMiddle with ⟨after, progress, others, showsAfter⟩
      refine ⟨after, progress, ?_, showsAfter⟩
      rw [Transit.sweeps]
      simp [made, some, others]

theorem makeExact (shows : t.Shows s v) {left : List Move}
    (swept : Scene.Swept s v v.pending w left) :
    ∃ after, t.makeExact = (none, after) ∧ after.Shows s (w.waitingFor left) := by
  rw [← shows.pending] at swept
  rcases shows.sweeps swept with ⟨after, progress, made, showsAfter⟩
  refine ⟨{ after with pending := left }, ?_, showsAfter.waitingFor left⟩
  rw [Transit.makeExact, made]

theorem displace (shows : t.Shows s v) {residents : List (Method × Nat)}
    (displaced : v.displace? s p residents = some w) :
    ∃ after, t.displace p residents = (.ok (), after) ∧ after.Shows s w := by
  induction residents generalizing t v w with
  | nil =>
      cases displaced
      exact ⟨t, rfl, shows⟩
  | cons resident rest inductionHypothesis =>
      rcases resident with ⟨m, rank⟩
      rw [Scene.displace?] at displaced
      rw [Transit.displace, shows.fallback_eq]
      split at displaced
      · contradiction
      · rename_i full
        cases displaced
        rcases shows.relocate_of_full_exact full s.fallback with ⟨fault, made, isFull⟩
        refine ⟨t, ?_, shows⟩
        simp only [made, isFull, if_true]
      · rename_i u sent
        rcases shows.relocate sent s.fallback with ⟨size, middle, made, showsMiddle⟩
        have queued : (middle.queued m rank p size).Shows s
            { u.note m with pending := u.pending ++ [⟨m, s.fallback, p, some rank⟩] } := by
          refine { showsMiddle.note m size with pending := ?_ }
          rw [queued, showsMiddle.pending, showsMiddle.fallback_eq]
        rcases inductionHypothesis queued displaced with ⟨after, others, showsAfter⟩
        refine ⟨after, ?_, showsAfter⟩
        simp only [made]
        exact others

theorem settle (shows : t.Shows s v) {moves : List Move} (settled : v.settle? s moves = some w) :
    ∃ after, t.settle moves = (.ok (), after) ∧ after.Shows s w := by
  induction moves generalizing t v w with
  | nil =>
      cases settled
      exact ⟨t, rfl, shows⟩
  | cons move rest inductionHypothesis =>
      rw [Scene.settle?] at settled
      rcases Option.bind_eq_some_iff.mp settled with ⟨placed, found, later⟩
      have order : t.lastOrder move placed =
          (s.allocationOrder move.target).filter fun p => p ≠ placed.partition := by
        rw [lastOrder, shows.segmentation]
      rw [settle_cons, shows.placements, found]
      dsimp only
      split at later
      · contradiction
      · rename_i full
        rcases shows.relocate_of_full full move.target with ⟨fault, passed, made, isFull, quiet⟩
        have attempted : t.attempt move placed = (.error fault, t.logged passed) := by
          rw [attempt, order, Scene.isEmpty_of_send full]
          exact made
        have gaveUp := (shows.logged quiet).giveUp move placed
        rcases inductionHypothesis gaveUp later with ⟨after, others, showsAfter⟩
        refine ⟨after, ?_, showsAfter⟩
        simp only [attempted, isFull, if_true, others]
      · rename_i u sent
        rcases shows.relocate sent move.target with ⟨size, middle, made, showsMiddle⟩
        have attempted : t.attempt move placed = (.ok size, middle) := by
          rw [attempt, order, Scene.isEmpty_of_send sent]
          exact made
        rcases inductionHypothesis (showsMiddle.note move.method size) later with
          ⟨after, others, showsAfter⟩
        refine ⟨after, ?_, showsAfter⟩
        simp only [attempted, others]

/-! ## Remedies -/

theorem isFragmentedFor_eq (shows : t.Shows s v) {move : Move}
    (active : s.isActive move.target = true) : t.isFragmentedFor move = v.isFragmentedFor move := by
  rw [← shows.segmentation] at active
  rw [isFragmentedFor, shows.placements, shows.cache.freeBytes?_eq active,
    shows.cache.largestFree_eq active, Scene.isFragmentedFor]
  cases v.placements.find? move.method <;> rfl

theorem fragmentedTarget_eq (shows : t.Shows s v)
    (active : ∀ p, p.isManaged = true → s.isActive p = true) :
    t.fragmentedTarget = v.fragmentedTarget := by
  rw [fragmentedTarget, Scene.fragmentedTarget, shows.pending]
  congr 2
  funext move
  cases managed : move.target.isManaged with
  | false => rfl
  | true => rw [shows.isFragmentedFor_eq (active _ managed), shows.compacted]

theorem parkable?_eq (shows : t.Shows s v) : t.parkable? = v.parkable? s := by
  simp only [parkable?, Scene.parkable?, shows.pending, shows.parked, shows.fallback_eq,
    shows.partitionOf?_eq]

theorem residents_eq (shows : t.Shows s v) (p : Partition) : t.residents p = v.residents p := by
  rw [residents, Scene.residents, shows.placements, shows.pending]

end Shows

theorem isEmpty_of_fragmented (found : t.fragmentedTarget = some p) :
    t.pending.isEmpty = false := by
  cases pending : t.pending with
  | nil => simp [fragmentedTarget, pending] at found
  | cons _ _ => rfl

theorem isEmpty_of_parkable (found : t.parkable? = some m) : t.pending.isEmpty = false := by
  cases pending : t.pending with
  | nil => simp [parkable?, pending] at found
  | cons _ _ => rfl

theorem compact_of_displace
    (displaced : (t.marked p).displace p ((t.marked p).residents p) = (.ok (), after)) :
    t.compact p = (.ok (), after.sorted) := by
  unfold marked at displaced
  unfold compact
  dsimp only
  rw [displaced]
  rfl

theorem park_of_relocate {size : Nat}
    (made : (t.tried m).relocate m [(t.tried m).fallback] (t.tried m).fallback =
      (.ok size, after)) : t.park m = (.ok (), after.noteMoved m size) := by
  unfold tried at made
  unfold park
  dsimp only
  rw [made]

theorem park_of_full {fault : Fault}
    (failed : (t.tried m).relocate m [(t.tried m).fallback] (t.tried m).fallback =
      (.error fault, after)) (isFull : fault.isFull = true) : t.park m = (.ok (), after) := by
  unfold tried at failed
  unfold park
  dsimp only
  rw [failed]
  exact if_pos isFull

/-- A run goes as it is played. -/
theorem Shows.run (shows : t.Shows s v) (active : ∀ p, p.isManaged = true → s.isActive p = true)
    (plays : Scene.Plays s v w) : ∃ after, t.run = (.ok (), after) ∧ after.Shows s w := by
  induction plays generalizing t with
  | finish swept =>
      rcases shows.makeExact swept with ⟨after, made, showsAfter⟩
      refine ⟨after, ?_, showsAfter⟩
      have nothing : after.pending.isEmpty = true := by rw [showsAfter.pending]; rfl
      rw [run_eq, round, made]
      simp only [remedy, nothing, if_true]
  | @compact v w u last left moves p swept fragmented residents here displaced sorted later
      inductionHypothesis =>
      rcases shows.makeExact swept with ⟨middle, made, showsMiddle⟩
      have found : middle.fragmentedTarget = some p :=
        (showsMiddle.fragmentedTarget_eq active).trans fragmented
      have marked : (middle.marked p).Shows s
          { w.waitingFor left with compacted := p :: w.compacted } :=
        { showsMiddle with compacted := congrArg (p :: ·) showsMiddle.compacted }
      rcases marked.displace displaced with ⟨emptied, left, showsEmptied⟩
      rcases inductionHypothesis (showsEmptied.waitingFor moves) with ⟨after, others, showsAfter⟩
      refine ⟨after, ?_, showsAfter⟩
      have compacted : middle.compact p = (.ok (), { emptied with pending := moves }) := by
        have same : (middle.marked p).residents p = residents := (marked.residents_eq p).trans here
        rw [compact_of_displace (same ▸ left), Transit.sorted, showsEmptied.pending, sorted]
      rw [run_eq, round, made]
      simp only [remedy, isEmpty_of_fragmented found, found, compacted]
      exact others
  | @park v w u last left m swept whole parkable sent later inductionHypothesis =>
      rcases shows.makeExact swept with ⟨middle, made, showsMiddle⟩
      have nothing : middle.fragmentedTarget = none :=
        (showsMiddle.fragmentedTarget_eq active).trans whole
      have found : middle.parkable? = some m := showsMiddle.parkable?_eq.trans parkable
      have tried : (middle.tried m).Shows s { w.waitingFor left with parked := m :: w.parked } :=
        { showsMiddle with parked := congrArg (m :: ·) showsMiddle.parked }
      rcases tried.relocate sent s.fallback with ⟨size, there, sent, showsThere⟩
      rcases inductionHypothesis (showsThere.note m size) with ⟨after, others, showsAfter⟩
      refine ⟨after, ?_, showsAfter⟩
      have parked : middle.park m = (.ok (), there.noteMoved m size) :=
        park_of_relocate (tried.fallback_eq ▸ sent)
      rw [run_eq, round, made]
      simp only [remedy, isEmpty_of_parkable found, nothing, found, parked]
      exact others
  | @leave v w last left m swept whole parkable full later inductionHypothesis =>
      rcases shows.makeExact swept with ⟨middle, made, showsMiddle⟩
      have nothing : middle.fragmentedTarget = none :=
        (showsMiddle.fragmentedTarget_eq active).trans whole
      have found : middle.parkable? = some m := showsMiddle.parkable?_eq.trans parkable
      have tried : (middle.tried m).Shows s { w.waitingFor left with parked := m :: w.parked } :=
        { showsMiddle with parked := congrArg (m :: ·) showsMiddle.parked }
      rcases tried.relocate_of_full_exact full s.fallback with ⟨fault, stays, isFull⟩
      rcases inductionHypothesis tried with ⟨after, others, showsAfter⟩
      refine ⟨after, ?_, showsAfter⟩
      have parked : middle.park m = (.ok (), middle.tried m) :=
        park_of_full (tried.fallback_eq ▸ stays) isFull
      rw [run_eq, round, made]
      simp only [remedy, isEmpty_of_parkable found, nothing, found, parked]
      exact others
  | @settle v w last left swept some whole parkable settled =>
      rcases shows.makeExact swept with ⟨middle, made, showsMiddle⟩
      have nothing : middle.fragmentedTarget = none :=
        (showsMiddle.fragmentedTarget_eq active).trans whole
      have nobody : middle.parkable? = none := showsMiddle.parkable?_eq.trans parkable
      rcases (showsMiddle.waitingFor []).settle settled with ⟨after, last, showsAfter⟩
      refine ⟨after, ?_, showsAfter⟩
      have pending : middle.pending = left := showsMiddle.pending
      rw [← pending] at last
      have waits : middle.pending.isEmpty = false := by
        rw [pending]
        exact List.isEmpty_eq_false_iff.mpr some
      rw [run_eq, round, made]
      simp only [remedy, waits, nothing, nobody, last]
      rfl

end Transit

end CodeLayout
