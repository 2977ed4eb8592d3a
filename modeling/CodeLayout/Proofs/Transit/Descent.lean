import CodeLayout.Proofs.Transit.Stages
import Mathlib.Order.WellFounded

/-!
# Descent of a run

Every act takes a run closer to its end.  Emptying a partition uses up one of the
compactions that are left, although it adds moves; between two compactions parking
uses up a pending move that may still be parked, and making a move exactly takes it
off the list.  So no sequence of acts goes on forever, whatever the acts are.
-/

namespace CodeLayout.Transit

variable {t after : Transit} {first next : Stage}

/-- What is left to do at a stage: first the compactions, with a surplus that says
which loop is running, then the moves or methods of that loop. -/
def Stage.measure : Stage → Nat × Nat
  | .moving t => (2 * t.compactionsLeft + 2, t.parkingsLeft + t.pending.length)
  | .emptying _ residents t => (2 * t.compactionsLeft + 3, residents.length)
  | .settling moves _ => (1, moves.length)
  | .done _ => (0, 0)

/-- The stage is closer to the end. -/
def Stage.Below : Stage → Stage → Prop :=
  InvImage (Prod.Lex (· < ·) (· < ·)) Stage.measure

theorem wellFounded_below : WellFounded Stage.Below :=
  InvImage.wf Stage.measure (Prod.lex Nat.lt_wfRel Nat.lt_wfRel).wf

theorem below_of_fst_lt (fewer : next.measure.1 < first.measure.1) : next.Below first :=
  Prod.lex_def.mpr (Or.inl fewer)

theorem below_of_snd_lt (same : next.measure.1 = first.measure.1)
    (fewer : next.measure.2 < first.measure.2) : next.Below first :=
  Prod.lex_def.mpr (Or.inr ⟨same, fewer⟩)

theorem compactionsLeft_congr (same : after.compacted = t.compacted) :
    after.compactionsLeft = t.compactionsLeft := by
  rw [compactionsLeft, compactionsLeft, same]

theorem SameDuties.of_relocate {m : Method} {order : List Partition} {requested : Partition}
    {result : Except Fault Nat} (made : t.relocate m order requested = (result, after)) :
    SameDuties t after := by
  have same := relocate_sameDuties t m order requested
  rwa [made] at same

/-- A move that is struck off leaves less to do. -/
theorem below_of_struck {kept rest : List Move} {move : Move}
    (pending : t.pending = kept ++ move :: rest) (left : after.pending = kept ++ rest)
    (compacted : after.compacted = t.compacted) (parked : after.parked = t.parked) :
    (Stage.moving after).Below (.moving t) := by
  apply below_of_snd_lt
  · simp only [Stage.measure, compactionsLeft_congr compacted]
  · simp only [Stage.measure, parkingsLeft, pending, left, parked, List.countP_append,
      List.countP_cons, List.length_append, List.length_cons]
    omega

/-- A parking leaves less to do. -/
theorem below_of_parked {m : Method} (parkable : t.parkable? = some m)
    (same : SameDuties (t.tried m) after) : (Stage.moving after).Below (.moving t) := by
  rcases parkable_isFresh parkable with ⟨move, member, isMethod, fresh⟩
  have fewer := parkingsLeft_lt ⟨move, member, isMethod⟩ fresh same.pending same.parked
  have pending : after.pending = t.pending := same.pending
  apply below_of_snd_lt
  · simp only [Stage.measure, compactionsLeft_congr (t := t) same.compacted]
  · simp only [Stage.measure, pending]
    omega

/-- Every act takes a run closer to its end. -/
theorem Act.below (act : Act first next) : next.Below first := by
  cases act with
  | @arrive t after kept rest move bytes pending _ made =>
      have same := SameDuties.of_relocate made
      exact below_of_struck pending rfl same.compacted same.parked
  | skip pending _ => exact below_of_struck pending rfl rfl rfl
  | @empty t p _ fragmented =>
      rcases fragmentedTarget_isFresh fragmented with ⟨managed, fresh⟩
      have fewer : (t.marked p).compactionsLeft < t.compactionsLeft :=
        compactionsLeft_lt managed fresh rfl
      apply below_of_fst_lt
      simp only [Stage.measure]
      omega
  | @displace t after p m rank bytes rest made =>
      have same := SameDuties.of_relocate made
      have compactions : (after.queued m rank p bytes).compactionsLeft = t.compactionsLeft :=
        compactionsLeft_congr same.compacted
      apply below_of_snd_lt
      · simp only [Stage.measure, compactions]
      · simp [Stage.measure]
  | @halt t | @emptied t =>
      have compactions : t.sorted.compactionsLeft = t.compactionsLeft := compactionsLeft_congr rfl
      apply below_of_fst_lt
      simp only [Stage.measure, compactions]
      omega
  | @park t after m bytes _ _ parkable made =>
      exact below_of_parked parkable
        ((SameDuties.of_relocate made).trans (noteMoved_sameDuties after m bytes))
  | leave _ _ parkable _ _ => exact below_of_parked parkable (.refl _)
  | last _ _ _ =>
      apply below_of_fst_lt
      simp only [Stage.measure]
      omega
  | pass _ | settle _ _ | giveUp _ _ _ =>
      apply below_of_snd_lt
      · rfl
      · simp [Stage.measure]
  | finish _ | settled =>
      apply below_of_fst_lt
      simp [Stage.measure]

/-- No run goes on forever. -/
theorem not_endless (stages : Nat → Stage) : ¬ ∀ n, Act (stages n) (stages (n + 1)) := by
  intro endless
  have chains := wellFounded_iff_isEmpty_descending_chain.mp wellFounded_below
  exact chains.false ⟨stages, fun n => (endless n).below⟩

end CodeLayout.Transit
