import CodeLayout.Proofs.Distinct
import CodeLayout.Proofs.Transit.Evictions

/-!
# The tally of a run

What a run counts is what it logs.  Each relocation is listed, with its method, where
the method came from and went to, and its size; the bytes moved, the methods moved and
the methods evicted are read off this list.  A method without a rank is on the list
once at most, and if it is, it has gone from a managed partition to the fallback
partition for good.
-/

namespace CodeLayout.Transit

/-- A method has moved from one partition to another. -/
structure Relocation where
  method : Method
  source : Partition
  target : Partition
  size : Nat
deriving DecidableEq, Repr

/-- The event that tells of a relocation. -/
def Relocation.event (r : Relocation) : Event :=
  .methodRelocated r.method.display r.source r.target r.size

variable {grade : Method → Option Nat} {target : Method → Partition} {before : Placements}
  {code : Method → Option ByteArray} {t after : Transit} {first next last : Stage} {m : Method}
  {placed : Placement} {b : Blob} {cache : Cache} {passed : List Event} {order : List Partition}
  {made : List Relocation}

/-! ## Counters -/

/-- The relocations made so far are those that are logged and counted. -/
structure Counted (before : Placements) (t : Transit) (made : List Relocation) : Prop where
  methods : t.placements.map Placement.method = before.map Placement.method
  installed : ∀ r ∈ made, r.method ∈ before.map Placement.method
  events : t.events.filter Event.isRelocation = made.map Relocation.event
  moved : t.moved = (made.map Relocation.method).eraseDups
  bytesMoved : t.bytesMoved = (made.map Relocation.size).sum

/-- The states agree on the placements, on the counters and on the relocations logged. -/
structure SameTally (t after : Transit) : Prop where
  placements : after.placements = t.placements
  fallback : after.fallback = t.fallback
  relocations : after.events.filter Event.isRelocation = t.events.filter Event.isRelocation
  moved : after.moved = t.moved
  bytesMoved : after.bytesMoved = t.bytesMoved
  evicted : after.evicted = t.evicted

/-- To give up on a method is no relocation. -/
theorem relocations_giveUp {move : Move} (quiet : ∀ event ∈ passed, event.isQuiet = true) :
    ((t.logged passed).giveUp move placed).events.filter Event.isRelocation =
      t.events.filter Event.isRelocation := by
  simp [giveUp, logged, (Event.filter_quiet quiet).2, Event.isRelocation]

/-- The relocation of a placed method into a blob. -/
def relocationOf (placed : Placement) (b : Blob) : Relocation :=
  ⟨placed.method, placed.partition, b.partition, b.size⟩

namespace Counted

theorem of_same (counted : Counted before t made) (same : SameTally t after) :
    Counted before after made where
  methods := by rw [same.placements, counted.methods]
  installed := counted.installed
  events := same.relocations.trans counted.events
  moved := same.moved.trans counted.moved
  bytesMoved := same.bytesMoved.trans counted.bytesMoved

/-- A relocation is logged and counted. -/
theorem relocated (counted : Counted before t made)
    (relocates : Relocates t m order placed b cache)
    (quiet : ∀ event ∈ passed, event.isQuiet = true) :
    Counted before ((t.movedTo placed b cache passed).noteMoved m b.size)
      (made ++ [relocationOf placed b]) := by
  rcases Placements.mem_of_find? relocates.found with ⟨member, rfl⟩
  constructor
  · have placements := congrArg (List.map Prod.fst) relocates.placed
    rw [List.map_map, List.map_map] at placements
    exact placements.trans counted.methods
  · intro r isMade
    rcases List.mem_append.mp isMade with old | new
    · exact counted.installed r old
    · rw [List.mem_singleton.mp new, ← counted.methods]
      exact List.mem_map_of_mem member
  · rw [List.map_append, ← counted.events]
    simp only [noteMoved, movedTo, List.filter_append, (Event.filter_quiet quiet).2,
      List.nil_append, List.map_singleton]
    rfl
  · have sameMoved : (t.movedTo placed b cache passed).moved =
        (made.map Relocation.method).eraseDups := counted.moved
    simp only [noteMoved, sameMoved, List.contains_eq_mem, List.mem_eraseDups,
      decide_eq_true_eq, List.map_append, List.map_singleton]
    split
    · rename_i old
      exact (Distinct.eraseDups_concat_of_mem old).symm
    · rename_i new
      exact (Distinct.eraseDups_concat_of_not_mem new).symm
  · have sameBytes : (t.movedTo placed b cache passed).bytesMoved =
        (made.map Relocation.size).sum := counted.bytesMoved
    simp [noteMoved, sameBytes, relocationOf]

end Counted

/-! ## Evictions -/

/-- The relocation is the eviction of a method without a rank. -/
def Relocation.isEviction (grade : Method → Option Nat) (r : Relocation) : Bool :=
  (grade r.method).isNone

theorem Relocation.isEviction_iff {r : Relocation} :
    r.isEviction grade = true ↔ grade r.method = none :=
  Option.isNone_iff_eq_none

/-- What is counted, and what has become of the methods without a rank. -/
structure Tally (grade : Method → Option Nat) (before : Placements) (stage : Stage)
    (made : List Relocation) : Prop where
  counted : Counted before stage.transit made
  evicted : stage.transit.evicted = made.countP (Relocation.isEviction grade)
  once : ((made.filter (Relocation.isEviction grade)).map Relocation.method).Nodup
  /-- An eviction leads from a managed partition to the fallback partition. -/
  evictions : ∀ r ∈ made, grade r.method = none →
    r.method ∉ stage.waiting.map Move.method ∧
      ∃ p ∈ before, p.partition.isManaged = true ∧
        r = ⟨p.method, p.partition, stage.transit.fallback, p.size⟩
  /-- Whoever has been evicted has arrived, and everybody else is where he was. -/
  unranked : ∀ p ∈ stage.transit.placements, grade p.method = none →
    p.method ∈ made.map Relocation.method ∧ p.partition = stage.transit.fallback ∨
      p.method ∉ made.map Relocation.method ∧ p ∈ before
  waiting : ∀ p ∈ stage.transit.placements, grade p.method = none →
    p.method ∈ stage.waiting.map Move.method → p.partition.isManaged = true

/-- Nobody without a rank begins to wait. -/
def Stage.NoLater (grade : Method → Option Nat) (first next : Stage) : Prop :=
  ∀ n ∈ next.waiting.map Move.method, grade n = none → n ∈ first.waiting.map Move.method

theorem Stage.NoLater.of_subset (subset : next.waiting ⊆ first.waiting) :
    first.NoLater grade next :=
  fun _ waits _ => List.map_subset _ subset waits

namespace Tally

/-- Whoever waits without a rank has not moved. -/
theorem not_made_of_waiting (tally : Tally grade before first made) (isNone : grade m = none)
    (waits : m ∈ first.waiting.map Move.method) : m ∉ made.map Relocation.method := by
  intro isMade
  rcases List.mem_map.mp isMade with ⟨r, old, rfl⟩
  exact (tally.evictions r old isNone).1 waits

/-- Nothing moves. -/
theorem of_same (tally : Tally grade before first made)
    (same : SameTally first.transit next.transit) (later : first.NoLater grade next) :
    Tally grade before next made := by
  constructor
  · exact tally.counted.of_same same
  · exact same.evicted.trans tally.evicted
  · exact tally.once
  · intro r isMade isNone
    rcases tally.evictions r isMade isNone with ⟨apart, p, isPlacement, managed, isRelocation⟩
    rw [same.fallback]
    exact ⟨fun waits => apart (later _ waits isNone), p, isPlacement, managed, isRelocation⟩
  · rw [same.placements, same.fallback]
    exact tally.unranked
  · intro p member isNone waits
    rw [same.placements] at member
    exact tally.waiting p member isNone (later _ waits isNone)

/-- A method with a rank moves. -/
theorem of_ranked (tally : Tally grade before first made) (held : first.transit.Held code)
    (relocates : Relocates first.transit m order placed b cache)
    (quiet : ∀ event ∈ passed, event.isQuiet = true) (ranked : grade m ≠ none)
    (same : SameTally ((first.transit.movedTo placed b cache passed).noteMoved m b.size)
      next.transit) (later : first.NoLater grade next) :
    Tally grade before next (made ++ [relocationOf placed b]) := by
  rcases Placements.mem_of_find? relocates.found with ⟨_, rfl⟩
  have fallback : next.transit.fallback = first.transit.fallback :=
    same.fallback.trans (congrArg Segmentation.fallback relocates.segmentation)
  have noEviction : (relocationOf placed b).isEviction grade = false := by
    simpa [Relocation.isEviction, relocationOf, Option.isSome_iff_ne_none] using ranked
  have other {n : Method} (isNone : grade n = none) : n ≠ placed.method := by
    rintro rfl
    exact ranked isNone
  have earlier {p : Placement} (member : p ∈ next.transit.placements)
      (isNone : grade p.method = none) : p ∈ first.transit.placements := by
    rw [same.placements] at member
    rcases relocates.mem_placements held member with ⟨isMethod, _⟩ | ⟨_, old⟩
    · exact absurd isMethod (other isNone)
    · exact old
  constructor
  · exact (tally.counted.relocated relocates quiet).of_same same
  · rw [same.evicted, List.countP_append, List.countP_singleton, noEviction]
    exact tally.evicted
  · rw [List.filter_append, List.filter_cons, noEviction]
    simpa using tally.once
  · intro r isMade isNone
    rcases List.mem_append.mp isMade with old | new
    · rcases tally.evictions r old isNone with ⟨apart, p, isPlacement, managed, isRelocation⟩
      rw [fallback]
      exact ⟨fun waits => apart (later _ waits isNone), p, isPlacement, managed, isRelocation⟩
    · rw [List.mem_singleton.mp new] at isNone
      exact absurd isNone ranked
  · intro p member isNone
    rw [fallback, List.map_append, List.map_singleton]
    rcases tally.unranked p (earlier member isNone) isNone with ⟨isMade, there⟩ | ⟨notMade, kept⟩
    · exact Or.inl ⟨List.mem_append_left _ isMade, there⟩
    · refine Or.inr ⟨?_, kept⟩
      rw [List.mem_append, not_or]
      exact ⟨notMade, fun isLast => other isNone (List.mem_singleton.mp isLast)⟩
  · exact fun p member isNone waits =>
      tally.waiting p (earlier member isNone) isNone (later _ waits isNone)

/-- A method without a rank is evicted. -/
theorem of_evicted (tally : Tally grade before first made) (held : first.transit.Held code)
    (relocates : Relocates first.transit m order placed b cache)
    (quiet : ∀ event ∈ passed, event.isQuiet = true) (isNone : grade m = none)
    (waited : m ∈ first.waiting.map Move.method) (there : b.partition = first.transit.fallback)
    (same : SameTally ((first.transit.movedTo placed b cache passed).noteMoved m b.size)
      { next.transit with evicted := first.transit.evicted })
    (evicted : next.transit.evicted = first.transit.evicted + 1)
    (later : first.NoLater grade next) (leaves : m ∉ next.waiting.map Move.method) :
    Tally grade before next (made ++ [relocationOf placed b]) := by
  rcases Placements.mem_of_find? relocates.found with ⟨member, rfl⟩
  have fallback : next.transit.fallback = first.transit.fallback :=
    same.fallback.trans (congrArg Segmentation.fallback relocates.segmentation)
  have isEviction : (relocationOf placed b).isEviction grade = true :=
    Relocation.isEviction_iff.mpr isNone
  have fresh : placed.method ∉ made.map Relocation.method :=
    tally.not_made_of_waiting isNone waited
  have kept : placed ∈ before := by
    rcases tally.unranked placed member isNone with ⟨isMade, _⟩ | ⟨_, kept⟩
    · exact absurd isMade fresh
    · exact kept
  have cases {p : Placement} (isPlacement : p ∈ next.transit.placements) :
      p.method = placed.method ∧ p.partition = b.partition ∨
        p.method ≠ placed.method ∧ p ∈ first.transit.placements := by
    have placements : next.transit.placements =
      first.transit.placements.put { placed with blob := b } := same.placements
    rw [placements] at isPlacement
    exact relocates.mem_placements held isPlacement
  constructor
  · have counted := (tally.counted.relocated relocates quiet).of_same same
    exact ⟨counted.methods, counted.installed, counted.events, counted.moved, counted.bytesMoved⟩
  · rw [evicted, List.countP_append, List.countP_singleton, isEviction, tally.evicted]
    rfl
  · rw [List.filter_append, List.filter_cons, isEviction, if_pos rfl, List.filter_nil,
      List.map_append, List.map_singleton, ← List.concat_eq_append]
    apply tally.once.concat
    exact fun isMade => fresh ((List.filter_sublist.map _).subset isMade)
  · intro r isMade unranked
    rw [fallback]
    rcases List.mem_append.mp isMade with old | new
    · rcases tally.evictions r old unranked with ⟨apart, p, isPlacement, managed, isRelocation⟩
      exact ⟨fun waits => apart (later _ waits unranked), p, isPlacement, managed, isRelocation⟩
    · rw [List.mem_singleton.mp new]
      refine ⟨leaves, placed, kept, tally.waiting placed member isNone waited, ?_⟩
      rw [relocationOf, there, relocates.size]
      rfl
  · intro p isPlacement unranked
    rw [fallback, List.map_append, List.map_singleton]
    rcases cases isPlacement with ⟨isMethod, isThere⟩ | ⟨other, old⟩
    · refine Or.inl ⟨?_, isThere.trans there⟩
      rw [isMethod]
      exact List.mem_append_right _ List.mem_cons_self
    · rcases tally.unranked p old unranked with ⟨isMade, arrived⟩ | ⟨notMade, isBefore⟩
      · exact Or.inl ⟨List.mem_append_left _ isMade, arrived⟩
      · refine Or.inr ⟨?_, isBefore⟩
        rw [List.mem_append, not_or]
        exact ⟨notMade, fun isLast => other (List.mem_singleton.mp isLast)⟩
  · intro p isPlacement unranked waits
    rcases cases isPlacement with ⟨isMethod, _⟩ | ⟨_, old⟩
    · exact absurd (isMethod ▸ waits) leaves
    · exact tally.waiting p old unranked (later _ waits unranked)

end Tally

/-! ## Acts -/

/-- An exact move is counted as an eviction if its method has no rank. -/
theorem Tally.arrive {kept rest : List Move} {move : Move} {size : Nat}
    (tally : Tally grade before (.moving t) made) (held : t.Held code)
    (orderly : Orderly target (.moving t)) (graded : Graded grade (.moving t))
    (pending : t.pending = kept ++ move :: rest)
    (arrived : t.relocate move.method [move.target] move.target = (.ok size, after)) :
    ∃ made, Tally grade before
      (.moving { after.noteExact move size with pending := kept ++ rest }) made := by
  rcases relocate_eq_ok held arrived with ⟨placed, b, cache, passed, rfl, rfl, quiet, exchanges⟩
  have isPending : move ∈ t.pending := pending ▸ List.mem_append_right _ List.mem_cons_self
  have nodup := orderly.waiting_nodup
  rw [Stage.waiting, pending] at nodup
  have later : (Stage.moving t).NoLater grade (.moving
      { (t.movedTo placed b cache passed).noteExact move b.size with
        pending := kept ++ rest }) := by
    apply Stage.NoLater.of_subset
    rw [Stage.waiting, Stage.waiting, pending]
    exact ((List.sublist_cons_self move rest).append_left kept).subset
  have there : b.partition = move.target := List.mem_singleton.mp exchanges.partition
  cases isRank : move.rank with
  | some rank =>
      have ranked : grade move.method ≠ none := by
        rw [← graded.moves move isPending, isRank]
        exact Option.some_ne_none rank
      refine ⟨_, tally.of_ranked held exchanges.toRelocates quiet ranked ?_ later⟩
      have notEvicted : (t.movedTo placed b cache passed).evicted =
          ((t.movedTo placed b cache passed).noteExact move b.size).evicted := by
        rw [noteExact, isRank]
        rfl
      exact ⟨rfl, rfl, rfl, rfl, rfl, notEvicted.symm⟩
  | none =>
      have unranked : grade move.method = none := by
        rw [← graded.moves move isPending, isRank]
      refine ⟨_, tally.of_evicted held exchanges.toRelocates quiet unranked
        (List.mem_map_of_mem isPending) ?_ ⟨rfl, rfl, rfl, rfl, rfl, rfl⟩ ?_ later
        (not_waiting_of_nodup kept nodup)⟩
      · rw [there]
        exact graded.evictions move isPending isRank
      · rw [Stage.transit, noteExact, isRank]
        rfl

/-- Every act that relocates a method adds to the tally. -/
theorem Act.tally (act : Act first next) (held : first.transit.Held code)
    (orderly : Orderly target first) (graded : Graded grade first)
    (tally : Tally grade before first made) : ∃ made, Tally grade before next made := by
  cases act with
  | arrive pending _ arrived => exact tally.arrive held orderly graded pending arrived
  | @skip t kept rest move pending _ =>
      refine ⟨made, tally.of_same ⟨rfl, rfl, rfl, rfl, rfl, rfl⟩ (.of_subset ?_)⟩
      rw [Stage.waiting, Stage.waiting, pending]
      exact ((List.sublist_cons_self move rest).append_left kept).subset
  | @displace t after p m rank size rest relocated =>
      have pending : after.pending = t.pending := pending_of_relocate relocated
      have isRank : grade m = some rank := graded.residents _ List.mem_cons_self
      have ranked : grade m ≠ none := isRank ▸ Option.some_ne_none rank
      rcases relocate_eq_ok held relocated with
        ⟨placed, b, cache, passed, rfl, rfl, quiet, exchanges⟩
      refine ⟨_, tally.of_ranked held exchanges.toRelocates quiet ranked
        ⟨rfl, rfl, rfl, rfl, rfl, rfl⟩ ?_⟩
      intro n waits isNone
      simp only [Stage.waiting, queued, pending, List.map_append, List.mem_append] at waits
      rcases waits with old | new
      · exact old
      · rw [List.mem_singleton.mp new] at isNone
        exact absurd isNone ranked
  | halt _ _ | emptied =>
      exact ⟨made, tally.of_same ⟨rfl, rfl, rfl, rfl, rfl, rfl⟩
        (.of_subset (List.mergeSort_perm _ _).subset)⟩
  | @park t after m size _ _ parkable relocated =>
      have pending : after.pending = t.pending := pending_of_relocate (t := t.tried m) relocated
      rcases relocate_eq_ok (t := t.tried m) held relocated with
        ⟨placed, b, cache, passed, rfl, rfl, quiet, exchanges⟩
      refine ⟨_, tally.of_ranked held exchanges.of_tried.toRelocates quiet
        (graded.ranked_of_parkable parkable) ⟨rfl, rfl, rfl, rfl, rfl, rfl⟩ ?_⟩
      intro n waits _
      simp only [Stage.waiting, noteMoved, pending] at waits
      exact waits
  | @settle t after move rest placed size found attempted =>
      have ranked : grade move.method ≠ none := by
        rw [← graded.moves move List.mem_cons_self]
        exact graded.ranked_of_attempt attempted
      rcases attempt_eq_ok held found attempted with
        ⟨b, cache, passed, rfl, rfl, quiet, exchanges⟩
      exact ⟨_, tally.of_ranked held exchanges.toRelocates quiet ranked
        ⟨rfl, rfl, rfl, rfl, rfl, rfl⟩ (.of_subset (List.subset_cons_self _ _))⟩
  | giveUp found isFull noRoom =>
      rcases attempt_eq_error held found noRoom isFull with ⟨passed, rfl, quiet⟩
      exact ⟨made, tally.of_same ⟨rfl, rfl, relocations_giveUp quiet, rfl, rfl, rfl⟩
        (.of_subset (List.subset_cons_self _ _))⟩
  | empty _ _ | leave _ _ _ _ _ | last _ _ _ | settled =>
      exact ⟨made, tally.of_same ⟨rfl, rfl, rfl, rfl, rfl, rfl⟩
        (.of_subset (List.Subset.refl _))⟩
  | pass _ =>
      exact ⟨made, tally.of_same ⟨rfl, rfl, rfl, rfl, rfl, rfl⟩
        (.of_subset (List.subset_cons_self _ _))⟩
  | finish _ =>
      exact ⟨made, tally.of_same ⟨rfl, rfl, rfl, rfl, rfl, rfl⟩ (.of_subset (List.nil_subset _))⟩

/-- At every stage of a run the tally is right. -/
theorem Leads.tally (leads : Leads first last) (governed : Governed target code first)
    (graded : Graded grade first) (tally : Tally grade before first made) :
    ∃ made, Tally grade before last made := by
  have both : ∃ made, Governed target code last ∧ Graded grade last ∧
      Tally grade before last made := by
    induction leads with
    | refl => exact ⟨made, governed, graded, tally⟩
    | tail _ act inductionHypothesis =>
        rcases inductionHypothesis with ⟨_, governedThere, gradedThere, tallyThere⟩
        rcases act.tally governedThere.held governedThere.orderly gradedThere tallyThere with
          ⟨madeThere, tallyNext⟩
        exact ⟨madeThere, act.governed governedThere, act.graded governedThere.held gradedThere,
          tallyNext⟩
  rcases both with ⟨madeThere, _, _, tallyThere⟩
  exact ⟨madeThere, tallyThere⟩

end CodeLayout.Transit
