import CodeLayout.Proofs.Time.Triggers
import Mathlib.Data.Finset.Card
import Mathlib.Data.List.Perm.Subperm

/-!
# The earliest times

A trigger set holds the earliest of the times from which it is made.  It is determined by
which times occur among them, and does not depend on how these are sorted, how repeats are
dropped, or what is done first.
-/

namespace CodeLayout.TriggerSet

variable {s r : TriggerSet} {times others sorted : List TimeOfDay}

/-- The set holds the earliest of the times that occur, each once and in the order of the
day: all of them, or ten. -/
structure IsEarliest (times : List TimeOfDay) (s : TriggerSet) : Prop where
  ascending : s.Ascending
  occurs : ∀ t ∈ s.times, t ∈ times
  count : s.times.length = min 10 times.toFinset.card
  least : ∀ t ∈ s.times, ∀ u ∈ times, u ∉ s.times → t.minutes < u.minutes

theorem Ascending.nodup (ascending : s.Ascending) : s.times.Nodup :=
  ascending.imp fun before same => absurd (congrArg TimeOfDay.minutes same) (Nat.ne_of_lt before)

/-- The first times of an ascending list that has the times which occur are the earliest. -/
theorem isEarliest_take (ascending : sorted.Pairwise fun t u => t.minutes < u.minutes)
    (members : ∀ t, t ∈ sorted ↔ t ∈ times) : IsEarliest times ⟨sorted.take capacity⟩ where
  ascending := ascending.take
  occurs t member := (members t).mp (List.mem_of_mem_take member)
  count := by
    have once : sorted.Nodup := Ascending.nodup (s := ⟨sorted⟩) ascending
    have same : sorted.toFinset = times.toFinset := by
      ext t
      simp [members t]
    rw [← same, List.toFinset_card_of_nodup once]
    exact List.length_take
  least t member u occurs left := by
    have listed : u ∈ sorted.take capacity ++ sorted.drop capacity := by
      rw [List.take_append_drop]
      exact (members u).mpr occurs
    rw [← List.take_append_drop capacity sorted, List.pairwise_append] at ascending
    exact ascending.2.2 t member u ((List.mem_append.mp listed).resolve_left left)

theorem isEarliest_earliest (distinct : times.Nodup) : IsEarliest times (earliest times) :=
  isEarliest_take (ascending_mergeSort distinct) fun _ => List.mem_mergeSort

/-- What is sorted first and loses its repeats then holds the earliest times as well. -/
theorem isEarliest_ofTimes (times : List TimeOfDay) : IsEarliest times (ofTimes times) :=
  isEarliest_take (ascending_eraseReps times) fun _ =>
    Distinct.mem_eraseReps.trans List.mem_mergeSort

namespace IsEarliest

/-- It only matters which times occur. -/
theorem congr (isEarliest : IsEarliest times s) (same : ∀ t, t ∈ times ↔ t ∈ others) :
    IsEarliest others s where
  ascending := isEarliest.ascending
  occurs t member := (same t).mp (isEarliest.occurs t member)
  count := by
    have equal : times.toFinset = others.toFinset := by
      ext t
      simp [same t]
    rw [isEarliest.count, equal]
  least t member u occurs := isEarliest.least t member u ((same u).mpr occurs)

theorem filled (isEarliest : IsEarliest times s) (given : times ≠ []) : s.times ≠ [] := by
  intro empty
  have count := isEarliest.count
  have some : 0 < times.toFinset.card := by
    rw [Finset.card_pos, List.toFinset_nonempty_iff]
    exact given
  rw [empty, List.length_nil] at count
  omega

/-- A time that one set holds is held by the other: otherwise all times of the other are
earlier, and so the first one holds them too, and has one more. -/
theorem subset (first : IsEarliest times s) (second : IsEarliest times r) :
    s.times ⊆ r.times := by
  intro t member
  by_contra missed
  have count : s.times.length = r.times.length := first.count.trans second.count.symm
  have others : r.times ⊆ s.times := by
    intro u isOther
    by_contra left
    have before := second.least u isOther t (first.occurs t member) missed
    have behind := first.least t member u (second.occurs u isOther) left
    omega
  have same := (List.subperm_of_subset second.ascending.nodup others).perm_of_length_le count.le
  exact missed (same.mem_iff.mpr member)

/-- There is one set of the earliest times. -/
theorem unique (first : IsEarliest times s) (second : IsEarliest times r) : s = r := by
  have same : s.times.Perm r.times :=
    (List.perm_ext_iff_of_nodup first.ascending.nodup second.ascending.nodup).mpr fun _ =>
      ⟨fun member => first.subset second member, fun member => second.subset first member⟩
  have equal : s.times = r.times :=
    same.eq_of_pairwise (fun t u _ _ before behind => absurd before (Nat.lt_asymm behind))
      first.ascending second.ascending
  rcases s with ⟨held⟩
  rcases r with ⟨others⟩
  exact congrArg TriggerSet.mk equal

end IsEarliest

end CodeLayout.TriggerSet
