import Mathlib.Data.List.Induction
import Mathlib.Data.List.Nodup

/-!
# First occurrences

Dropping the repeats from a list keeps the first occurrence of each member, and so does
dropping every member that follows its equal, if the list is in order.  Where keys are not
repeated, a member is the only one with its key.
-/

namespace CodeLayout.Distinct

variable {α : Type} [DecidableEq α] {before : List α} {a : α}

theorem eraseDups_concat_of_mem (old : a ∈ before) :
    (before ++ [a]).eraseDups = before.eraseDups := by
  rw [List.eraseDups_append]
  simp [List.removeAll, old]

theorem eraseDups_concat_of_not_mem (new : a ∉ before) :
    (before ++ [a]).eraseDups = before.eraseDups ++ [a] := by
  rw [List.eraseDups_append]
  simp [List.removeAll, new, List.eraseDups_cons]

theorem nodup_eraseDups (members : List α) : members.eraseDups.Nodup := by
  induction members using List.reverseRecOn with
  | nil => exact List.nodup_nil
  | append_singleton before a inductionHypothesis =>
      by_cases old : a ∈ before
      · rw [eraseDups_concat_of_mem old]
        exact inductionHypothesis
      · rw [eraseDups_concat_of_not_mem old, ← List.concat_eq_append]
        exact inductionHypothesis.concat fun member => old (List.mem_eraseDups.mp member)

/-- Where nothing is repeated, there is nothing to drop. -/
theorem eraseDups_eq_self {members : List α} (nodup : members.Nodup) :
    members.eraseDups = members := by
  induction members using List.reverseRecOn with
  | nil => rfl
  | append_singleton before a inductionHypothesis =>
      rw [← List.concat_eq_append, List.nodup_concat] at nodup
      rw [eraseDups_concat_of_not_mem nodup.1, inductionHypothesis nodup.2]

/-- Members that are told apart by a key are repeated as often as their keys. -/
theorem eraseDups_map {β : Type} [DecidableEq β] (key : α → β) (members : List α)
    (apart : ∀ a ∈ members, ∀ b ∈ members, key a = key b → a = b) :
    (members.map key).eraseDups = members.eraseDups.map key := by
  induction members using List.reverseRecOn with
  | nil => rfl
  | append_singleton before a inductionHypothesis =>
      have last : a ∈ before ++ [a] := List.mem_append_right _ List.mem_cons_self
      have earlier := inductionHypothesis fun b isFirst c isSecond =>
        apart b (List.mem_append_left _ isFirst) c (List.mem_append_left _ isSecond)
      rw [List.map_append, List.map_singleton]
      by_cases old : a ∈ before
      · rw [eraseDups_concat_of_mem (List.mem_map_of_mem old), eraseDups_concat_of_mem old, earlier]
      · have new : key a ∉ before.map key := by
          intro repeated
          rcases List.mem_map.mp repeated with ⟨b, member, same⟩
          rw [apart b (List.mem_append_left _ member) a last same] at member
          exact old member
        rw [eraseDups_concat_of_not_mem new, eraseDups_concat_of_not_mem old, earlier,
          List.map_append, List.map_singleton]

omit [DecidableEq α] in
/-- No other member has the key of a member. -/
theorem filter_key_eq {β : Type} [DecidableEq β] {key : α → β} {members : List α}
    (nodup : (members.map key).Nodup) (member : a ∈ members) :
    members.filter (fun b => key b = key a) = [a] := by
  induction members with
  | nil => contradiction
  | cons first rest inductionHypothesis =>
      rw [List.map_cons, List.nodup_cons] at nodup
      rcases List.mem_cons.mp member with rfl | inRest
      · have others : rest.filter (fun b => key b = key a) = [] := by
          apply List.filter_eq_nil_iff.mpr
          intro b isOther same
          rw [decide_eq_true_eq] at same
          exact nodup.1 (same ▸ List.mem_map_of_mem isOther)
        rw [List.filter_cons_of_pos (by simp), others]
      · have differs : key first ≠ key a := by
          intro same
          exact nodup.1 (same ▸ List.mem_map_of_mem inRest)
        rw [List.filter_cons_of_neg (by simpa using differs), inductionHypothesis nodup.2 inRest]

/-! ## Neighbours -/

omit [DecidableEq α] in
theorem eraseReps_loop [BEq α] (a : α) (rest kept : List α) :
    List.eraseRepsBy.loop (· == ·) a rest kept =
      kept.reverse ++ List.eraseRepsBy.loop (· == ·) a rest [] := by
  induction rest generalizing a kept with
  | nil => simp [List.eraseRepsBy.loop]
  | cons b rest inductionHypothesis =>
      rw [List.eraseRepsBy.loop, List.eraseRepsBy.loop]
      cases a == b with
      | true => exact inductionHypothesis a kept
      | false =>
          dsimp only
          rw [inductionHypothesis b (a :: kept), inductionHypothesis b [a]]
          simp

/-- Of two neighbours that are equal one is kept. -/
theorem eraseReps_cons_cons (a b : α) (rest : List α) :
    (a :: b :: rest).eraseReps =
      if a = b then (b :: rest).eraseReps else a :: (b :: rest).eraseReps := by
  by_cases same : a = b
  · subst same
    simp [List.eraseReps, List.eraseRepsBy, List.eraseRepsBy.loop]
  · simp only [same, if_false, List.eraseReps, List.eraseRepsBy]
    rw [List.eraseRepsBy.loop, beq_false_of_ne same]
    dsimp only
    rw [eraseReps_loop]
    rfl

@[simp]
theorem mem_eraseReps {members : List α} : a ∈ members.eraseReps ↔ a ∈ members := by
  induction members with
  | nil => simp [List.eraseReps, List.eraseRepsBy]
  | cons b rest inductionHypothesis =>
      cases rest with
      | nil => simp [List.eraseReps, List.eraseRepsBy, List.eraseRepsBy.loop]
      | cons c rest =>
          rw [eraseReps_cons_cons]
          by_cases same : b = c
          · simp [same, inductionHypothesis]
          · simp [same, inductionHypothesis]

/-- Where members are in order, equal ones are neighbours, and none is kept twice. -/
theorem ascending_eraseReps {key : α → Nat} (apart : ∀ a b, key a = key b → a = b)
    {members : List α} (sorted : members.Pairwise fun a b => key a ≤ key b) :
    members.eraseReps.Pairwise fun a b => key a < key b := by
  induction members with
  | nil => exact List.Pairwise.nil
  | cons a rest inductionHypothesis =>
      cases rest with
      | nil => exact List.pairwise_singleton _ a
      | cons b rest =>
          rw [List.pairwise_cons] at sorted
          have others := inductionHypothesis sorted.2
          rw [eraseReps_cons_cons]
          split
          · exact others
          · rename_i differs
            refine List.pairwise_cons.mpr ⟨fun c member => ?_, others⟩
            have first : key a < key b :=
              Nat.lt_of_le_of_ne (sorted.1 b List.mem_cons_self) fun same =>
                differs (apart a b same)
            rcases List.mem_cons.mp (mem_eraseReps.mp member) with rfl | later
            · exact first
            · exact Nat.lt_of_lt_of_le first (List.rel_of_pairwise_cons sorted.2 later)

/-! ## Repeats -/

/-- The members that occur before, each where it is repeated. -/
def repeats (members : List α) : List α :=
  (members.zipIdx.filter fun (a, i) => a ∈ members.take i).map Prod.fst

@[simp]
theorem repeats_nil : repeats ([] : List α) = [] :=
  rfl

theorem repeats_concat (before : List α) (a : α) :
    repeats (before ++ [a]) = repeats before ++ if a ∈ before then [a] else [] := by
  have earlier : (before.zipIdx.filter fun (b, i) => b ∈ (before ++ [a]).take i) =
      before.zipIdx.filter fun (b, i) => b ∈ before.take i := by
    apply List.filter_congr
    rintro ⟨b, i⟩ member
    have inside : i < before.length := by simpa using List.snd_lt_of_mem_zipIdx member
    dsimp only
    rw [List.take_append_of_le_length (Nat.le_of_lt inside)]
  rw [repeats, List.zipIdx_append, List.filter_append, earlier, List.map_append]
  congr 1
  by_cases old : a ∈ before <;> simp [old]

end CodeLayout.Distinct
