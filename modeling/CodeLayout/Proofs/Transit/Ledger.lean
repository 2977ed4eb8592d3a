import CodeLayout.Proofs.Transit.Ample
import CodeLayout.Proofs.Transit.Descent

/-!
# The ledger of a run

Each act does one deed at most: a move is delivered exactly, the compaction of a
partition begins, a resident that left it is queued to come back, a method is parked,
or a move is dealt with among the last ones.  A course lists the deeds of a run.  Moves
are entered by the plan and by queuing, and they leave by delivery and among the last
moves; what has been entered and has not left is what waits.
-/

namespace CodeLayout.Transit

variable {target : Method → Partition} {code : Method → Option ByteArray} {t after : Transit}
  {first middle next last : Stage} {m : Method} {p : Partition} {order : List Partition}
  {requested : Partition} {size : Nat}

/-! ## Where the waiting methods are -/

/-- A relocation that succeeds brings its method into a partition of the order and
leaves all others where they are. -/
theorem partitionOf?_of_relocate (held : t.Held code)
    (made : t.relocate m order requested = (.ok size, after)) :
    ∃ q ∈ order, ∀ n, after.partitionOf? n = if n = m then some q else t.partitionOf? n := by
  rcases relocate_eq_ok held made with ⟨placed, b, cache, passed, rfl, _, _, exchanges⟩
  rcases Placements.mem_of_find? exchanges.found with ⟨_, rfl⟩
  exact ⟨b.partition, exchanges.partition, partitionOf?_movedTo t placed b cache passed⟩

theorem partitionOf?_of_relocate_exact (held : t.Held code)
    (made : t.relocate m [p] requested = (.ok size, after)) (n : Method) :
    after.partitionOf? n = if n = m then some p else t.partitionOf? n := by
  rcases partitionOf?_of_relocate held made with ⟨q, isTarget, there⟩
  rw [there, List.mem_singleton.mp isTarget]

/-- The attempt at a last move leaves all other methods where they are. -/
theorem partitionOf?_of_attempt (held : t.Held code) {move : Move} {placed : Placement}
    {result : Except Fault Nat} (found : t.placements.find? move.method = some placed)
    (made : t.attempt move placed = (result, after)) {n : Method} (other : n ≠ move.method) :
    after.partitionOf? n = t.partitionOf? n := by
  cases result with
  | error fault =>
      rcases attempt_cases held found with
        ⟨_, _, equal, ⟨_, _, _, _⟩⟩ | ⟨_, _, _, equal, _, _⟩
      · cases equal.symm.trans made
        rfl
      · cases equal.symm.trans made
  | ok size =>
      rcases attempt_eq_ok held found made with ⟨b, cache, passed, rfl, _⟩
      rw [partitionOf?_movedTo, if_neg]
      rw [(Placements.mem_of_find? found).2]
      exact other

/-- No method that waits for a move is at its target. -/
def Stage.Elsewhere (stage : Stage) : Prop :=
  ∀ move ∈ stage.waiting, stage.transit.partitionOf? move.method ≠ some move.target

/-- What holds of the stages of a run: nobody is lost, and nobody waits in vain. -/
structure Governed (target : Method → Partition) (code : Method → Option ByteArray)
    (stage : Stage) : Prop where
  held : stage.transit.Held code
  orderly : Orderly target stage
  owes : stage.Owes target
  elsewhere : stage.Elsewhere

theorem Orderly.waiting_nodup {stage : Stage} (orderly : Orderly target stage) :
    (stage.waiting.map Move.method).Nodup :=
  orderly.nodup.sublist (List.sublist_append_left _ _)

/-- Who waits elsewhere while another method moves is still elsewhere. -/
theorem Stage.Elsewhere.of_others (elsewhere : first.Elsewhere)
    (waiting : ∀ move ∈ next.waiting, move ∈ first.waiting ∧
      next.transit.partitionOf? move.method = first.transit.partitionOf? move.method) :
    next.Elsewhere := by
  intro move member
  rcases waiting move member with ⟨waited, same⟩
  rw [same]
  exact elsewhere move waited

/-- Who waits beside a move that is struck off is another method. -/
theorem ne_of_waiting (kept : List Move) {rest : List Move} {move other : Move}
    (nodup : ((kept ++ move :: rest).map Move.method).Nodup) (member : other ∈ kept ++ rest) :
    other.method ≠ move.method := by
  intro same
  apply not_waiting_of_nodup kept nodup
  rw [← same]
  exact List.mem_map_of_mem member

/-- The attempt at the first of the last moves leaves the others where they are. -/
theorem Governed.others_of_attempt {move : Move} {rest : List Move} {placed : Placement}
    {result : Except Fault Nat} (governed : Governed target code (.settling (move :: rest) t))
    (found : t.placements.find? move.method = some placed)
    (made : t.attempt move placed = (result, after)) :
    ∀ other ∈ rest, other ∈ move :: rest ∧
      after.partitionOf? other.method = t.partitionOf? other.method := by
  intro other member
  have differs := ne_of_waiting [] governed.orderly.waiting_nodup member
  exact ⟨List.mem_cons_of_mem move member,
    partitionOf?_of_attempt governed.held found made differs⟩

theorem ne_fallback_of_managed (t : Transit) (managed : p.isManaged = true) : t.fallback ≠ p := by
  rintro rfl
  have unmanaged := Plan.isManaged_fallback t.cache.segmentation
  rw [fallback, unmanaged] at managed
  contradiction

theorem Act.elsewhere (act : Act first next) (governed : Governed target code first) :
    next.Elsewhere := by
  have nodup := governed.orderly.waiting_nodup
  cases act with
  | @arrive t after kept rest move size pending _ made =>
      rw [Stage.waiting, pending] at nodup
      apply governed.elsewhere.of_others
      intro other member
      constructor
      · rw [Stage.waiting, pending]
        exact ((List.sublist_cons_self move rest).append_left kept).subset member
      · change after.partitionOf? other.method = t.partitionOf? other.method
        rw [partitionOf?_of_relocate_exact governed.held made,
          if_neg (ne_of_waiting kept nodup member)]
        rfl
  | @skip t kept rest move pending _ =>
      apply governed.elsewhere.of_others
      intro other member
      refine ⟨?_, rfl⟩
      rw [Stage.waiting, pending]
      exact ((List.sublist_cons_self move rest).append_left kept).subset member
  | @displace t after p m rank size rest made =>
      have pending : after.pending = t.pending := (SameDuties.of_relocate made).pending
      have there := partitionOf?_of_relocate_exact governed.held made
      have managed := (governed.orderly.leaves p _ t rfl).1
      intro move member
      change after.partitionOf? move.method ≠ some move.target
      rw [there]
      change move ∈ after.pending ++ [_] at member
      rw [pending] at member
      rcases List.mem_append.mp member with waits | queued
      · have apart := (List.nodup_append.mp governed.orderly.nodup).2.2 _
          (List.mem_map_of_mem waits) m List.mem_cons_self
        rw [if_neg apart]
        exact governed.elsewhere move waits
      · rw [List.mem_singleton.mp queued, if_pos rfl, Ne, Option.some.injEq]
        exact ne_fallback_of_managed t managed
  | @park t after m size _ _ parkable made =>
      have pending : after.pending = t.pending := (SameDuties.of_relocate made).pending
      have there := partitionOf?_of_relocate_exact (t := t.tried m) governed.held made
      rcases exists_move_of_parkable governed.orderly parkable with ⟨_, _, _, managed, _⟩
      intro move member
      change move ∈ after.pending at member
      rw [pending] at member
      change after.partitionOf? move.method ≠ some move.target
      rw [there]
      split
      · rename_i same
        have aim : move.target = target m := same ▸ governed.orderly.aim move member
        rw [aim, Ne, Option.some.injEq]
        exact ne_fallback_of_managed t managed
      · exact governed.elsewhere move member
  | settle found made =>
      have others := governed.others_of_attempt found made
      exact governed.elsewhere.of_others others
  | giveUp found _ noRoom =>
      have others := governed.others_of_attempt found noRoom
      exact governed.elsewhere.of_others others
  | halt _ _ | emptied =>
      exact governed.elsewhere.of_others fun _ member => ⟨List.mem_mergeSort.mp member, rfl⟩
  | empty _ _ | leave _ _ _ _ _ | last _ _ _ =>
      exact governed.elsewhere.of_others fun _ member => ⟨member, rfl⟩
  | pass _ =>
      exact governed.elsewhere.of_others fun _ member => ⟨List.mem_cons_of_mem _ member, rfl⟩
  | finish _ | settled => exact fun _ member => absurd member List.not_mem_nil

theorem Act.governed (act : Act first next) (governed : Governed target code first) :
    Governed target code next := by
  rcases act.orderly governed.held governed.orderly governed.owes with ⟨orderly, owes⟩
  exact ⟨(act.steps.held governed.held).1, orderly, owes, act.elsewhere governed⟩

/-! ## Deeds -/

/-- What an act does to the lists of a run. -/
inductive Deed where
  /-- A pending move is made exactly. -/
  | deliver (move : Move)
  /-- The compaction of a partition begins. -/
  | compact (p : Partition)
  /-- A resident that left its partition queues up to come back. -/
  | queue (move : Move)
  /-- A method is parked, as far as there is room. -/
  | park (m : Method)
  /-- One of the last moves is made or given up. -/
  | settle (move : Move)
  /-- The lists stay what they are, but for their order. -/
  | proceed
deriving DecidableEq

namespace Deed

/-- The move that begins to wait. -/
def entered? : Deed → Option Move
  | queue move => some move
  | _ => none

/-- The move that waits no longer. -/
def left? : Deed → Option Move
  | deliver move | settle move => some move
  | _ => none

def compacted? : Deed → Option Partition
  | compact p => some p
  | _ => none

def parked? : Deed → Option Method
  | park m => some m
  | _ => none

/-- Under which circumstances a deed is done, and what comes of it. -/
def Means (first next : Stage) : Deed → Prop
  | deliver move => (∃ t after, first = .moving t ∧ next = .moving after) ∧
      first.transit.partitionOf? move.method ≠ some move.target ∧
      next.transit.partitionOf? move.method = some move.target
  | compact p => p.isManaged = true ∧ p ∉ first.transit.compacted ∧
      ∃ t residents after, first = .moving t ∧ next = .emptying p residents after
  | queue move => (∃ rank rest t after,
        first = .emptying move.target ((move.method, rank) :: rest) t ∧
        next = .emptying move.target rest after) ∧
      first.transit.partitionOf? move.method = some move.target ∧
      next.transit.partitionOf? move.method = some first.transit.fallback
  | park m => m ∉ first.transit.parked ∧ (∃ move ∈ first.waiting, move.method = m) ∧
      ∃ t after, first = .moving t ∧ next = .moving after
  | settle move => ∃ rest t after, first = .settling (move :: rest) t ∧ next = .settling rest after
  | proceed => True

end Deed

/-- An act does a deed. -/
structure Does (first : Stage) (deed : Deed) (next : Stage) : Prop where
  act : Act first next
  means : deed.Means first next
  waiting : (first.waiting ++ deed.entered?.toList).Perm (deed.left?.toList ++ next.waiting)
  compacted : next.transit.compacted = deed.compacted?.toList ++ first.transit.compacted
  parked : next.transit.parked = deed.parked?.toList ++ first.transit.parked

/-- An act that does nothing to the lists. -/
theorem Act.proceeds (act : Act first next) (waiting : first.waiting.Perm next.waiting)
    (compacted : next.transit.compacted = first.transit.compacted)
    (parked : next.transit.parked = first.transit.parked) : Does first .proceed next :=
  ⟨act, trivial, by simpa [Deed.entered?, Deed.left?] using waiting, compacted, parked⟩

/-- An act that parks a method, or tries to. -/
theorem Act.parks (act : Act (.moving t) (.moving after)) (parkable : t.parkable? = some m)
    (same : SameDuties (t.tried m) after) : Does (.moving t) (.park m) (.moving after) := by
  rcases parkable_isFresh parkable with ⟨move, member, isMethod, fresh⟩
  have pending : after.pending = t.pending := same.pending
  have notParked : m ∉ t.parked := by simpa using fresh
  refine ⟨act, ⟨notParked, ⟨move, member, isMethod⟩, t, after, rfl, rfl⟩, ?_, same.compacted,
    same.parked⟩
  simp [Deed.entered?, Deed.left?, Stage.waiting, pending]

/-- An act that deals with the next one of the last moves. -/
theorem Act.settles {move : Move} {rest : List Move}
    (act : Act (.settling (move :: rest) t) (.settling rest after))
    (same : SameDuties t after) :
    Does (.settling (move :: rest) t) (.settle move) (.settling rest after) :=
  ⟨act, ⟨rest, t, after, rfl, rfl⟩, .of_eq (List.append_nil _), same.compacted, same.parked⟩

theorem attempt_sameDuties {move : Move} {placed : Placement} {result : Except Fault Nat}
    (made : t.attempt move placed = (result, after)) : SameDuties t after := by
  unfold attempt at made
  split at made
  · cases made
    exact .refl t
  · exact .of_relocate made

/-- Every act of a run does a deed; no move is dropped otherwise. -/
theorem Act.does (act : Act first next) (governed : Governed target code first) :
    ∃ deed, Does first deed next := by
  have did := act
  cases act with
  | @arrive t after kept rest move size pending elsewhere made =>
      have same := SameDuties.of_relocate made
      have there := partitionOf?_of_relocate_exact governed.held made move.method
      rw [if_pos rfl] at there
      refine ⟨.deliver move, did, ⟨⟨t, _, rfl, rfl⟩, elsewhere, there⟩, ?_, same.compacted,
        same.parked⟩
      change (t.pending ++ []).Perm (move :: (kept ++ rest))
      rw [List.append_nil, pending]
      exact List.perm_middle
  | @skip t kept rest move pending inPlace =>
      have isPending : move ∈ t.pending := pending ▸ List.mem_append_right _ List.mem_cons_self
      exact absurd inPlace (governed.elsewhere move isPending)
  | @empty t p _ fragmented =>
      rcases fragmentedTarget_isFresh fragmented with ⟨managed, fresh⟩
      have notCompacted : p ∉ t.compacted := by simpa using fresh
      refine ⟨.compact p, did, ⟨managed, notCompacted, t, _, _, rfl, rfl⟩, ?_, rfl, rfl⟩
      exact .of_eq (List.append_nil _)
  | @displace t after p m rank size rest made =>
      have same := SameDuties.of_relocate made
      have there := partitionOf?_of_relocate_exact governed.held made m
      rw [if_pos rfl] at there
      have leaves := ((governed.orderly.leaves p _ t rfl).2 _ List.mem_cons_self).2
      refine ⟨.queue ⟨m, after.fallback, p, some rank⟩, did,
        ⟨⟨rank, rest, t, _, rfl, rfl⟩, leaves, there⟩, ?_, same.compacted, same.parked⟩
      change (t.pending ++ _).Perm ([] ++ (after.pending ++ _))
      rw [same.pending]
      exact .refl _
  | halt _ _ | emptied =>
      exact ⟨.proceed, did.proceeds (List.mergeSort_perm _ _).symm rfl rfl⟩
  | @park t after m size _ _ parkable made =>
      exact ⟨.park m, did.parks parkable
        ((SameDuties.of_relocate made).trans (noteMoved_sameDuties after m size))⟩
  | @leave t m fault _ _ parkable _ _ => exact ⟨.park m, did.parks parkable (.refl _)⟩
  | last _ _ _ => exact ⟨.proceed, did.proceeds (.refl _) rfl rfl⟩
  | @pass t move rest _ => exact ⟨.settle move, did.settles (.refl t)⟩
  | @settle t after move rest placed size _ made =>
      exact ⟨.settle move, did.settles
        ((attempt_sameDuties made).trans (noteMoved_sameDuties after move.method size))⟩
  | @giveUp t after move rest placed fault _ _ noRoom =>
      exact ⟨.settle move, did.settles ((attempt_sameDuties noRoom).trans ⟨rfl, rfl, rfl⟩)⟩
  | finish nothing => exact ⟨.proceed, did.proceeds (.of_eq nothing) rfl rfl⟩
  | settled => exact ⟨.proceed, did.proceeds (.refl _) rfl rfl⟩

/-! ## Courses -/

/-- The deeds that lead from one stage to another. -/
inductive Course (first : Stage) : List Deed → Stage → Prop
  | refl : Course first [] first
  | tail {middle last : Stage} {deeds : List Deed} {deed : Deed}
      (course : Course first deeds middle) (does : Does middle deed last) :
      Course first (deeds ++ [deed]) last

theorem filterMap_concat {α β : Type} (f : α → Option β) (entries : List α) (a : α) :
    (entries ++ [a]).filterMap f = entries.filterMap f ++ (f a).toList := by
  rw [List.filterMap_append]
  cases found : f a <;> simp [found]

namespace Course

variable {deeds : List Deed}

theorem leads (course : Course first deeds last) : Leads first last := by
  induction course with
  | refl => exact .refl
  | tail _ does inductionHypothesis => exact .tail inductionHypothesis does.act

theorem governed (course : Course first deeds last) (governed : Governed target code first) :
    Governed target code last := by
  induction course with
  | refl => exact governed
  | tail _ does inductionHypothesis => exact does.act.governed inductionHypothesis

/-- What has been entered and has not left still waits. -/
theorem waiting (course : Course first deeds last) :
    (first.waiting ++ deeds.filterMap Deed.entered?).Perm
      (deeds.filterMap Deed.left? ++ last.waiting) := by
  induction course with
  | refl => exact .of_eq (List.append_nil _)
  | @tail middle last deeds deed _ does inductionHypothesis =>
      rw [filterMap_concat, filterMap_concat, ← List.append_assoc]
      calc
        List.Perm _ (deeds.filterMap Deed.left? ++ middle.waiting ++ deed.entered?.toList) :=
          inductionHypothesis.append_right _
        List.Perm _ (deeds.filterMap Deed.left? ++ (deed.left?.toList ++ last.waiting)) := by
          rw [List.append_assoc]
          exact does.waiting.append_left _
        List.Perm _ (deeds.filterMap Deed.left? ++ deed.left?.toList ++ last.waiting) := by
          rw [List.append_assoc]

/-- The partitions compacted and the methods parked are noted, each one once. -/
theorem noted (course : Course first deeds last) :
    last.transit.compacted = (deeds.filterMap Deed.compacted?).reverse ++
        first.transit.compacted ∧
      last.transit.parked = (deeds.filterMap Deed.parked?).reverse ++ first.transit.parked := by
  induction course with
  | refl => exact ⟨rfl, rfl⟩
  | @tail middle last deeds deed _ does inductionHypothesis =>
      rw [filterMap_concat, filterMap_concat, does.compacted, does.parked,
        inductionHypothesis.1, inductionHypothesis.2]
      cases deed <;> simp [Deed.compacted?, Deed.parked?]

theorem once (course : Course first deeds last) (nothing : first.transit.compacted = [])
    (nobody : first.transit.parked = []) :
    (deeds.filterMap Deed.compacted?).Nodup ∧ (deeds.filterMap Deed.parked?).Nodup := by
  induction course with
  | refl => exact ⟨List.nodup_nil, List.nodup_nil⟩
  | @tail middle last deeds deed course does inductionHypothesis =>
      rcases course.noted with ⟨compacted, parked⟩
      rw [nothing, List.append_nil] at compacted
      rw [nobody, List.append_nil] at parked
      rcases inductionHypothesis with ⟨compactedOnce, parkedOnce⟩
      have means := does.means
      rw [filterMap_concat, filterMap_concat]
      cases deed with
      | compact p =>
          have fresh : p ∉ deeds.filterMap Deed.compacted? := by
            simpa [compacted] using means.2.1
          refine ⟨?_, by simpa [Deed.parked?] using parkedOnce⟩
          rw [Deed.compacted?, Option.toList_some, ← List.concat_eq_append]
          exact compactedOnce.concat fresh
      | park m =>
          have fresh : m ∉ deeds.filterMap Deed.parked? := by
            simpa [parked] using means.1
          refine ⟨by simpa [Deed.compacted?] using compactedOnce, ?_⟩
          rw [Deed.parked?, Option.toList_some, ← List.concat_eq_append]
          exact parkedOnce.concat fresh
      | deliver _ | queue _ | settle _ | proceed =>
          simpa [Deed.compacted?, Deed.parked?] using ⟨compactedOnce, parkedOnce⟩

end Course

/-- Whatever acts lead to a stage, deeds lead to it. -/
theorem Leads.exists_course (leads : Leads first last) (governed : Governed target code first) :
    ∃ deeds, Course first deeds last := by
  induction leads with
  | refl => exact ⟨[], .refl⟩
  | tail _ act inductionHypothesis =>
      rcases inductionHypothesis with ⟨deeds, course⟩
      rcases act.does (course.governed governed) with ⟨deed, does⟩
      exact ⟨deeds ++ [deed], course.tail does⟩

end CodeLayout.Transit
