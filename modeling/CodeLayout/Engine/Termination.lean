import CodeLayout.Engine.Transit

/-!
# Moves come to an end

Relocating code leaves the lists alone that say what is still to be done.  A
round that calls for another one has compacted a managed partition for the
first time, or has parked a method that waits for its move for the first time;
`Transit.run` therefore repeats rounds without any bound given from outside.
-/

namespace CodeLayout.Transit

/-- The two states agree on what is still to be done. -/
structure SameDuties (t after : Transit) : Prop where
  pending : after.pending = t.pending
  parked : after.parked = t.parked
  compacted : after.compacted = t.compacted

theorem SameDuties.refl (t : Transit) : SameDuties t t :=
  ⟨rfl, rfl, rfl⟩

theorem SameDuties.trans {t middle after : Transit} (first : SameDuties t middle)
    (second : SameDuties middle after) : SameDuties t after :=
  ⟨second.pending.trans first.pending, second.parked.trans first.parked,
    second.compacted.trans first.compacted⟩

theorem relocate_sameDuties (t : Transit) (m : Method) (order : List Partition)
    (requested : Partition) : SameDuties t (t.relocate m order requested).2 := by
  unfold relocate
  split
  · exact .refl t
  · split
    · exact .refl t
    · split
      · exact .refl t
      · dsimp only
        split
        · exact ⟨rfl, rfl, rfl⟩
        · split <;> exact ⟨rfl, rfl, rfl⟩

theorem noteMoved_sameDuties (t : Transit) (m : Method) (bytes : Nat) :
    SameDuties t (t.noteMoved m bytes) :=
  ⟨rfl, rfl, rfl⟩

theorem noteExact_sameDuties (t : Transit) (move : Move) (bytes : Nat) :
    SameDuties t (t.noteExact move bytes) :=
  ⟨rfl, rfl, rfl⟩

theorem sweep_sameDuties (t : Transit) (moves : List Move) :
    SameDuties t (t.sweep moves).transit := by
  induction moves generalizing t with
  | nil => exact .refl t
  | cons move rest inductionHypothesis =>
    rw [sweep]
    split
    · exact inductionHypothesis t
    · have relocated := relocate_sameDuties t move.method [move.target] move.target
      split
      · rename_i bytes after equal
        rw [equal] at relocated
        exact (relocated.trans (noteExact_sameDuties after move bytes)).trans
          (inductionHypothesis _)
      · rename_i fault after equal
        rw [equal] at relocated
        split
        · exact relocated.trans (inductionHypothesis after)
        · exact relocated

theorem sweeps_sameDuties (t : Transit) (moves : List Move) :
    SameDuties t (t.sweeps moves).transit := by
  fun_induction sweeps t moves with
  | case1 t moves s again inductionHypothesis =>
    exact (sweep_sameDuties t moves).trans inductionHypothesis
  | case2 t moves s again => exact sweep_sameDuties t moves

theorem sweeps_remaining_sublist (t : Transit) (moves : List Move) :
    (t.sweeps moves).remaining.Sublist moves := by
  fun_induction sweeps t moves with
  | case1 t moves s again inductionHypothesis =>
    exact inductionHypothesis.trans (sweep_remaining_sublist t moves)
  | case2 t moves s again => exact sweep_remaining_sublist t moves

theorem displace_compacted (t : Transit) (p : Partition) (residents : List (Method × Nat)) :
    (t.displace p residents).2.compacted = t.compacted := by
  induction residents generalizing t with
  | nil => rfl
  | cons resident rest inductionHypothesis =>
    obtain ⟨m, rank⟩ := resident
    rw [displace]
    have relocated := relocate_sameDuties t m [t.fallback] t.fallback
    split
    · rename_i bytes after equal
      rw [equal] at relocated
      exact (inductionHypothesis _).trans relocated.compacted
    · rename_i fault after equal
      rw [equal] at relocated
      split <;> exact relocated.compacted

theorem compact_compacted (t : Transit) (p : Partition) :
    (t.compact p).2.compacted = p :: t.compacted := by
  have displaced := displace_compacted { t with compacted := p :: t.compacted } p
    (residents { t with compacted := p :: t.compacted } p)
  unfold compact
  dsimp only
  split
  · rename_i after equal
    rw [equal] at displaced
    exact displaced
  · rename_i fault after equal
    rw [equal] at displaced
    exact displaced

theorem park_sameDuties (t : Transit) (m : Method) :
    SameDuties { t with parked := m :: t.parked } (t.park m).2 := by
  have relocated := relocate_sameDuties { t with parked := m :: t.parked } m
    [Transit.fallback { t with parked := m :: t.parked }]
    (Transit.fallback { t with parked := m :: t.parked })
  unfold park
  dsimp only
  split
  · rename_i bytes after equal
    rw [equal] at relocated
    exact relocated.trans (noteMoved_sameDuties after m bytes)
  · rename_i fault after equal
    rw [equal] at relocated
    split <;> exact relocated

/-- Managed partitions that may still be compacted. -/
def compactionsLeft (t : Transit) : Nat :=
  [Partition.hot, Partition.tmp].countP fun p => !t.compacted.contains p

/-- Pending moves whose method may still be parked. -/
def parkingsLeft (t : Transit) : Nat :=
  t.pending.countP fun move => !t.parked.contains move.method

/-- A stronger test that some entry fails counts fewer entries. -/
theorem countP_lt_of_imp {α : Type} {weak strong : α → Bool} {entries : List α}
    (implies : ∀ x ∈ entries, strong x = true → weak x = true)
    (fails : ∃ x ∈ entries, weak x = true ∧ strong x = false) :
    entries.countP strong < entries.countP weak := by
  induction entries with
  | nil => simp at fails
  | cons x rest inductionHypothesis =>
    have impliesRest : ∀ y ∈ rest, strong y = true → weak y = true :=
      fun y member => implies y (List.mem_cons_of_mem x member)
    have restLe : rest.countP strong ≤ rest.countP weak :=
      List.countP_mono_left impliesRest
    rw [List.countP_cons, List.countP_cons]
    obtain ⟨y, member, weakHolds, strongFails⟩ := fails
    rcases List.mem_cons.mp member with rfl | inRest
    · simp only [weakHolds, strongFails, if_true, Bool.false_eq_true, if_false]
      omega
    · have restLt := inductionHypothesis impliesRest ⟨y, inRest, weakHolds, strongFails⟩
      have headLe : (if strong x = true then 1 else 0) ≤ (if weak x = true then 1 else 0) := by
        split
        · rename_i holds
          exact Nat.le_of_eq (if_pos (implies x List.mem_cons_self holds)).symm
        · exact Nat.zero_le _
      omega

theorem fragmentedTarget_isFresh {t : Transit} {p : Partition}
    (found : t.fragmentedTarget = some p) :
    p.isManaged = true ∧ t.compacted.contains p = false := by
  obtain ⟨move, isFound, rfl⟩ := Option.map_eq_some_iff.mp found
  have holds := List.find?_some isFound
  simp only [Bool.and_eq_true, Bool.not_eq_eq_eq_not, Bool.not_true] at holds
  exact holds.1

theorem parkable_isFresh {t : Transit} {m : Method} (found : t.parkable? = some m) :
    ∃ move ∈ t.pending, move.method = m ∧ t.parked.contains m = false := by
  obtain ⟨move, isFound, rfl⟩ := Option.map_eq_some_iff.mp found
  have holds := List.find?_some isFound
  simp only [Bool.and_eq_true, Bool.not_eq_eq_eq_not, Bool.not_true] at holds
  exact ⟨move, List.mem_of_find?_eq_some isFound, rfl, holds.1.2⟩

theorem compactionsLeft_lt {t after : Transit} {p : Partition} (managed : p.isManaged = true)
    (fresh : t.compacted.contains p = false) (compacted : after.compacted = p :: t.compacted) :
    after.compactionsLeft < t.compactionsLeft := by
  refine countP_lt_of_imp (fun q _ holds => ?_) ⟨p, ?_, by rw [fresh]; rfl, by simp [compacted]⟩
  · rw [compacted] at holds
    simp only [List.contains_cons, Bool.not_or, Bool.and_eq_true] at holds
    exact holds.2
  · cases p <;> simp [Partition.isManaged] at managed ⊢

theorem parkingsLeft_lt {t after : Transit} {m : Method}
    (waits : ∃ move ∈ t.pending, move.method = m) (fresh : t.parked.contains m = false)
    (pending : after.pending = t.pending) (parked : after.parked = m :: t.parked) :
    after.parkingsLeft < t.parkingsLeft := by
  obtain ⟨move, member, rfl⟩ := waits
  unfold parkingsLeft
  rw [pending, parked]
  refine countP_lt_of_imp (fun other _ holds => ?_) ⟨move, member, by rw [fresh]; rfl, by simp⟩
  simp only [List.contains_cons, Bool.not_or, Bool.and_eq_true] at holds
  exact holds.2

/-- A remedy that calls for another round uses up a compaction, or a parking
and no compaction. -/
theorem remedy_again {t after : Transit} (again : t.remedy = .again after) :
    after.compactionsLeft < t.compactionsLeft ∨
      after.compactionsLeft = t.compactionsLeft ∧ after.parkingsLeft < t.parkingsLeft := by
  unfold remedy at again
  split at again
  · cases again
  · split at again
    · rename_i p found
      have fresh := fragmentedTarget_isFresh found
      have compacted := compact_compacted t p
      split at again
      · rename_i done equal
        rw [equal] at compacted
        cases again
        exact Or.inl (compactionsLeft_lt fresh.1 fresh.2 compacted)
      · cases again
    · split at again
      · rename_i m found
        obtain ⟨move, member, isMethod, fresh⟩ := parkable_isFresh found
        have parked := park_sameDuties t m
        split at again
        · rename_i done equal
          rw [equal] at parked
          cases again
          refine Or.inr ⟨?_, parkingsLeft_lt ⟨move, member, isMethod⟩ fresh parked.pending
            parked.parked⟩
          have same : after.compacted = t.compacted := parked.compacted
          unfold compactionsLeft
          rw [same]
        · cases again
      · split at again <;> cases again

theorem makeExact_left (t : Transit) :
    t.makeExact.2.compactionsLeft = t.compactionsLeft ∧
      t.makeExact.2.parkingsLeft ≤ t.parkingsLeft := by
  have same := sweeps_sameDuties t t.pending
  refine ⟨?_, ?_⟩
  · simp only [makeExact, compactionsLeft, same.compacted]
  · simp only [makeExact, parkingsLeft, same.parked]
    exact (sweeps_remaining_sublist t t.pending).countP_le

/-- A round that calls for another one has used up a compaction, or a parking
and no compaction. -/
theorem round_again {t after : Transit} (again : t.round = .again after) :
    after.compactionsLeft < t.compactionsLeft ∨
      after.compactionsLeft = t.compactionsLeft ∧ after.parkingsLeft < t.parkingsLeft := by
  have left := makeExact_left t
  unfold round at again
  split at again
  · rename_i exactly equal
    rw [equal] at left
    rcases remedy_again again with fewer | ⟨same, fewer⟩
    · exact Or.inl (left.1 ▸ fewer)
    · exact Or.inr ⟨same.trans left.1, Nat.lt_of_lt_of_le fewer left.2⟩
  · cases again

/-- Repeat rounds until all moves are made or given up. -/
def run (t : Transit) : Except Fault Unit × Transit :=
  match _again : t.round with
  | .again after => run after
  | .finished after => (.ok (), after)
  | .failed fault after => (.error fault, after)
termination_by (t.compactionsLeft, t.parkingsLeft)
decreasing_by
  rcases round_again _again with fewer | ⟨equal, fewer⟩
  · exact Prod.Lex.left _ _ fewer
  · rw [equal]
    exact Prod.Lex.right _ fewer

end CodeLayout.Transit
