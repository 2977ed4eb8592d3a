import CodeLayout.Proofs.Transit.Errands

/-!
# Whereabouts during a run

A run moves only methods that are on errands, and it moves them nowhere but to
their targets and to the fallback partition.  Everybody else stays.
-/

namespace CodeLayout

namespace Transit

variable {target : Method → Partition} {before : Placements} {code : Method → Option ByteArray}
  {t : Transit} {m : Method} {placed : Placement} {b : Blob} {cache : Cache}
  {passed : List Event} {first next : Stage}

/-- A method is where it was, or it is on an errand and at its target or in the
fallback partition. -/
def Roamed (target : Method → Partition) (before : Placements) (t : Transit) : Prop :=
  ∀ p ∈ t.placements, p ∈ before ∨
    t.cache.segmentation.Routable (target p.method) ∧
      (p.partition = target p.method ∨ p.partition = t.fallback)

theorem Roamed.of_same {after : Transit} (roamed : Roamed target before t)
    (same : SameCode t after) : Roamed target before after := by
  rw [Roamed, fallback, same.placements, same.cache]
  exact roamed

/-- A method on an errand moves to its target or to the fallback partition. -/
theorem Roamed.of_relocated {order : List Partition} (roamed : Roamed target before t)
    (held : t.Held code) (relocates : Relocates t m order placed b cache)
    (routable : t.cache.segmentation.Routable (target m))
    (there : b.partition = target m ∨ b.partition = t.fallback) :
    Roamed target before (t.movedTo placed b cache passed) := by
  intro p member
  have segmentation : (t.movedTo placed b cache passed).cache.segmentation = t.cache.segmentation :=
    relocates.segmentation
  rw [fallback, segmentation]
  rcases relocates.mem_placements held member with ⟨rfl, isThere⟩ | ⟨_, old⟩
  · rw [isThere]
    exact Or.inr ⟨routable, there⟩
  · exact roamed p old

theorem Act.roamed (act : Act first next) (held : first.transit.Held code)
    (orderly : Orderly target first) (roamed : Roamed target before first.transit) :
    Roamed target before next.transit := by
  have waits {move : Move} (member : move ∈ first.waiting) :
      first.transit.cache.segmentation.Routable (target move.method) :=
    orderly.routable move.method (List.mem_append_left _ (List.mem_map_of_mem member))
  cases act with
  | @arrive t after kept rest move size pending elsewhere made =>
      have isPending : move ∈ t.pending := pending ▸ List.mem_append_right _ List.mem_cons_self
      rcases relocate_eq_ok held made with ⟨placed, b, cache, passed, rfl, _, _, exchanges⟩
      refine Roamed.of_same (t := t.movedTo placed b cache passed) ?_ ⟨rfl, rfl, rfl, rfl, rfl, rfl⟩
      apply roamed.of_relocated held exchanges.toRelocates (waits isPending)
      rw [← orderly.aim move isPending]
      exact Or.inl (List.mem_singleton.mp exchanges.partition)
  | @displace t after p m rank size rest made =>
      have routable := orderly.routable m (List.mem_append_right _ List.mem_cons_self)
      rcases relocate_eq_ok held made with ⟨placed, b, cache, passed, rfl, _, _, exchanges⟩
      refine Roamed.of_same (t := t.movedTo placed b cache passed) ?_ ⟨rfl, rfl, rfl, rfl, rfl, rfl⟩
      exact roamed.of_relocated held exchanges.toRelocates routable
        (Or.inr (List.mem_singleton.mp exchanges.partition))
  | @park t after m size _ _ parkable made =>
      rcases parkable_isFresh parkable with ⟨move, isPending, rfl, _⟩
      rcases relocate_eq_ok (t := t.tried move.method) held made with
        ⟨placed, b, cache, passed, rfl, _, _, exchanges⟩
      refine Roamed.of_same (t := (t.tried move.method).movedTo placed b cache passed) ?_
        ⟨rfl, rfl, rfl, rfl, rfl, rfl⟩
      exact Roamed.of_relocated (t := t.tried move.method) roamed held exchanges.toRelocates
        (waits isPending) (Or.inr (List.mem_singleton.mp exchanges.partition))
  | @settle t after move rest placed size found made =>
      have isWaiting : move ∈ (Stage.settling (move :: rest) t).waiting := List.mem_cons_self
      have routable := waits isWaiting
      rcases attempt_eq_ok held found made with ⟨b, cache, passed, rfl, _, _, exchanges⟩
      refine Roamed.of_same (t := t.movedTo placed b cache passed) ?_ ⟨rfl, rfl, rfl, rfl, rfl, rfl⟩
      apply roamed.of_relocated held exchanges.toRelocates routable
      rw [← orderly.aim move isWaiting] at routable ⊢
      exact routable.allocationOrder (List.mem_of_mem_filter exchanges.partition)
  | @giveUp t after move rest placed fault found isFull noRoom =>
      rcases attempt_eq_error held found noRoom isFull with ⟨passed, rfl, _⟩
      exact roamed
  | skip | empty | halt | emptied | leave | last | pass | finish | settled => exact roamed

theorem Leads.roamed {last : Stage} (leads : Leads first last) (held : first.transit.Held code)
    (orderly : Orderly target first) (owes : first.Owes target)
    (roamed : Roamed target before first.transit) : Roamed target before last.transit := by
  induction leads with
  | refl => exact roamed
  | tail reaches act inductionHypothesis =>
      exact act.roamed (Leads.steps reaches |>.held held).1
        (Leads.orderly reaches held orderly owes).1 inductionHypothesis

end Transit

end CodeLayout
