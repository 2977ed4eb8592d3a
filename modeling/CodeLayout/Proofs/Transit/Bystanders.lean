import CodeLayout.Proofs.Transit.Ample
import CodeLayout.Proofs.Transit.Reports

/-!
# Bystanders of a run

A method outside the managed partitions that waits for no move is on no errand, and it
never gets on one: only residents of a managed partition that is emptied begin to wait.
As every relocation serves an errand, the placement of a bystander is the same at every
stage, whatever is moved into its heap and out of it meanwhile.
-/

namespace CodeLayout.Transit

variable {code : Method → Option ByteArray} {t after : Transit} {first next last : Stage}
  {m : Method} {order : List Partition} {p placed : Placement} {b : Blob} {cache : Cache}

/-- A placement that no errand concerns. -/
structure Aside (p : Placement) (stage : Stage) : Prop where
  placed : p ∈ stage.transit.placements
  idle : p.method ∉ stage.errands

/-- A relocation leaves the placements of the other methods alone. -/
theorem Relocates.mem_of_other (relocates : Relocates t m order placed b cache)
    (held : t.Held code) (member : p ∈ t.placements) (other : p.method ≠ m) :
    p ∈ t.placements.put { placed with blob := b } := by
  rcases Placements.mem_of_find? relocates.found with ⟨_, rfl⟩
  have stays : (t.placements.put { placed with blob := b }).find? p.method = some p := by
    rw [Placements.find?_put, if_neg other]
    exact held.find?_of_mem member
  exact (Placements.mem_of_find? stays).1

namespace Aside

/-- Nothing moves, and nobody gets on an errand. -/
theorem of_still (aside : Aside p first)
    (placements : next.transit.placements = first.transit.placements)
    (errands : next.errands ⊆ first.errands) : Aside p next := by
  constructor
  · rw [placements]
    exact aside.placed
  · exact fun onErrand => aside.idle (errands onErrand)

/-- A method on an errand moves. -/
theorem of_relocated (aside : Aside p first) (held : first.transit.Held code)
    (relocates : Relocates first.transit m order placed b cache) (onErrand : m ∈ first.errands)
    (placements : next.transit.placements =
      first.transit.placements.put { placed with blob := b })
    (errands : next.errands ⊆ first.errands) : Aside p next := by
  constructor
  · rw [placements]
    apply relocates.mem_of_other held aside.placed
    rintro rfl
    exact aside.idle onErrand
  · exact fun isNext => aside.idle (errands isNext)

/-- The residents of a managed partition are not bystanders. -/
theorem empty {q : Partition} (aside : Aside p (.moving t)) (held : t.Held code)
    (outside : p.partition.isManaged = false) (fragmented : t.fragmentedTarget = some q) :
    Aside p (.emptying q ((t.marked q).residents q) (t.marked q)) := by
  refine ⟨aside.placed, ?_⟩
  intro onErrand
  rcases List.mem_append.mp onErrand with waits | resides
  · exact aside.idle (List.mem_append_left _ waits)
  · rcases List.mem_map.mp resides with ⟨resident, isResident, sameMethod⟩
    rcases mem_residents isResident with ⟨r, member, isMethod, _, there, _⟩
    have same : r = p :=
      List.inj_on_of_nodup_map held.methods member aside.placed (isMethod.trans sameMethod)
    rcases exists_move_of_fragmented fragmented with ⟨_, _, _, managed⟩
    rw [← there, same, outside] at managed
    contradiction

end Aside

/-- Nobody but the struck move's method is off the list of errands. -/
theorem errands_of_struck {kept rest : List Move} {move : Move}
    (pending : t.pending = kept ++ move :: rest) :
    (Stage.moving { after with pending := kept ++ rest }).errands ⊆ (Stage.moving t).errands := by
  intro n onErrand
  simp only [Stage.errands, Stage.waiting, Stage.leaving, pending, List.map_append,
    List.map_cons, List.map_nil, List.append_nil, List.mem_append, List.mem_cons] at onErrand ⊢
  exact onErrand.imp_right Or.inr

/-- No act concerns a bystander. -/
theorem Act.aside (act : Act first next) (held : first.transit.Held code)
    (aside : Aside p first) (outside : p.partition.isManaged = false) : Aside p next := by
  cases act with
  | @arrive t after kept rest move size pending elsewhere made =>
      rcases relocate_eq_ok held made with ⟨placed, b, cache, passed, rfl, _, _, exchanges⟩
      have onErrand : move.method ∈ (Stage.moving t).errands := by
        apply List.mem_append_left
        rw [Stage.waiting, pending]
        exact List.mem_map_of_mem (List.mem_append_right _ List.mem_cons_self)
      exact aside.of_relocated held exchanges.toRelocates onErrand rfl (errands_of_struck pending)
  | @skip t kept rest move pending _ => exact aside.of_still rfl (errands_of_struck pending)
  | empty _ fragmented => exact aside.empty held outside fragmented
  | @displace t after q m rank size rest made =>
      have pending : after.pending = t.pending := pending_of_relocate made
      rcases relocate_eq_ok held made with ⟨placed, b, cache, passed, rfl, _, _, exchanges⟩
      have onErrand : m ∈ (Stage.emptying q ((m, rank) :: rest) t).errands :=
        List.mem_append_right _ List.mem_cons_self
      apply aside.of_relocated held exchanges.toRelocates onErrand rfl
      intro n isNext
      simp only [Stage.errands, Stage.waiting, Stage.leaving, queued, pending, List.map_append,
        List.map_cons, List.map_nil, List.mem_append, List.mem_cons, List.not_mem_nil,
        or_false, or_assoc] at isNext ⊢
      exact isNext
  | halt _ _ | emptied =>
      refine aside.of_still rfl ?_
      intro n isNext
      rcases List.mem_append.mp isNext with waits | leaves
      · rcases List.mem_map.mp waits with ⟨move, isMove, rfl⟩
        exact List.mem_append_left _ (List.mem_map_of_mem (List.mem_mergeSort.mp isMove))
      · contradiction
  | @park t after m size _ _ parkable made =>
      have pending : after.pending = t.pending := pending_of_relocate (t := t.tried m) made
      rcases parkable_isFresh parkable with ⟨move, isPending, rfl, _⟩
      rcases relocate_eq_ok (t := t.tried move.method) held made with
        ⟨placed, b, cache, passed, rfl, _, _, exchanges⟩
      have onErrand : move.method ∈ (Stage.moving t).errands :=
        List.mem_append_left _ (List.mem_map_of_mem isPending)
      apply aside.of_relocated held exchanges.of_tried.toRelocates onErrand rfl
      simp only [Stage.errands, Stage.waiting, noteMoved, pending]
      exact List.Subset.refl _
  | leave _ _ _ _ _ | last _ _ _ => exact aside.of_still rfl (List.Subset.refl _)
  | pass _ => exact aside.of_still rfl (List.subset_cons_self _ _)
  | @settle t after move rest placed size found made =>
      rcases attempt_eq_ok held found made with ⟨b, cache, passed, rfl, _, _, exchanges⟩
      have onErrand : move.method ∈ (Stage.settling (move :: rest) t).errands :=
        List.mem_append_left _ List.mem_cons_self
      exact aside.of_relocated held exchanges.toRelocates onErrand rfl (List.subset_cons_self _ _)
  | giveUp found isFull noRoom =>
      rcases attempt_eq_error held found noRoom isFull with ⟨passed, rfl, _⟩
      exact aside.of_still rfl (List.subset_cons_self _ _)
  | finish _ => exact aside.of_still rfl (List.nil_subset _)
  | settled => exact aside.of_still rfl (List.Subset.refl _)

/-- At every stage of a run the bystanders are where they were. -/
theorem Leads.aside (leads : Leads first last) (held : first.transit.Held code)
    (aside : Aside p first) (outside : p.partition.isManaged = false) : Aside p last := by
  induction leads with
  | refl => exact aside
  | tail reaches act inductionHypothesis =>
      exact act.aside (Leads.steps reaches |>.held held).1 inductionHypothesis outside

end CodeLayout.Transit
