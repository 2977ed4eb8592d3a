import CodeLayout.Proofs.Heap.Coverage
import Mathlib.Algebra.Ring.Nat

/-!
# Spaced free ranges

The free ranges of a heap stand in ascending order and no two of them touch:
they are the maximal gaps between the blobs.  Taking bytes off the first range
that has enough of them and giving a range back keep this, change the total
length by exactly these bytes, and change the length of the longest range by
no more than these bytes.
-/

namespace CodeLayout.Extent

variable {need start bound : Nat} {free rest : List Extent} {e freed : Extent}

/-- The ranges stand in ascending order, none is empty, and between any two of
them there is a gap. -/
structure Spaced (free : List Extent) : Prop where
  positive : ∀ e ∈ free, 0 < e.length
  gaps : free.Pairwise fun e f => e.stop < f.offset

/-- The length of all ranges together. -/
def total (free : List Extent) : Nat :=
  (free.map Extent.length).sum

@[simp]
theorem total_nil : total [] = 0 :=
  rfl

@[simp]
theorem total_cons : total (e :: rest) = e.length + total rest :=
  List.sum_cons

theorem Spaced.tail (spaced : Spaced (e :: rest)) : Spaced rest where
  positive f member := spaced.positive f (List.mem_cons_of_mem e member)
  gaps := spaced.gaps.of_cons

theorem Spaced.before (spaced : Spaced (e :: rest)) : ∀ f ∈ rest, e.stop < f.offset :=
  fun _ member => List.rel_of_pairwise_cons spaced.gaps member

theorem Spaced.cons (spaced : Spaced rest) (positive : 0 < e.length)
    (before : ∀ f ∈ rest, e.stop < f.offset) : Spaced (e :: rest) where
  positive := by
    intro f member
    rcases List.mem_cons.mp member with rfl | inRest
    · exact positive
    · exact spaced.positive f inRest
  gaps := spaced.gaps.cons before

/-- Two free ranges are the same or have something between them. -/
theorem Spaced.eq_or_apart {f : Extent} (spaced : Spaced free) (first : e ∈ free)
    (second : f ∈ free) : e = f ∨ e.stop < f.offset ∨ f.stop < e.offset := by
  induction free with
  | nil => contradiction
  | cons g rest inductionHypothesis =>
      rcases List.mem_cons.mp first with rfl | firstInRest
      · rcases List.mem_cons.mp second with rfl | secondInRest
        · exact Or.inl rfl
        · exact Or.inr (Or.inl (spaced.before f secondInRest))
      · rcases List.mem_cons.mp second with rfl | secondInRest
        · exact Or.inr (Or.inr (spaced.before e firstInRest))
        · exact inductionHypothesis spaced.tail firstInRest secondInRest

/-! ## The longest range -/

theorem longest_le_iff : longest free ≤ bound ↔ ∀ e ∈ free, e.length ≤ bound := by
  have fromStart (start : Nat) : free.foldl (fun n e => max n e.length) start ≤ bound ↔
      start ≤ bound ∧ ∀ e ∈ free, e.length ≤ bound := by
    induction free generalizing start with
    | nil => simp
    | cons e rest inductionHypothesis =>
        rw [List.foldl_cons, inductionHypothesis, Nat.max_le, List.forall_mem_cons, and_assoc]
  rw [longest, fromStart]
  simp

theorem length_le_longest (member : e ∈ free) : e.length ≤ longest free :=
  longest_le_iff.mp (Nat.le_refl _) e member

@[simp]
theorem longest_cons : longest (e :: rest) = max e.length (longest rest) := by
  apply Nat.le_antisymm
  · apply longest_le_iff.mpr
    intro f member
    rcases List.mem_cons.mp member with rfl | inRest
    · exact Nat.le_max_left _ _
    · exact Nat.le_trans (length_le_longest inRest) (Nat.le_max_right _ _)
  · apply Nat.max_le.mpr
    constructor
    · exact length_le_longest List.mem_cons_self
    · exact longest_le_iff.mpr fun f member => length_le_longest (List.mem_cons_of_mem e member)

/-- A free list with one range at most has all its bytes in one piece. -/
theorem longest_eq_total (whole : free.length ≤ 1) : longest free = total free := by
  match free, whole with
  | [], _ => rfl
  | [e], _ => simp [longest, total]

/-! ## Carving -/

/-- Nothing can be taken off exactly when all ranges are too short. -/
theorem carve_eq_none_iff (positive : 0 < need) :
    carve need free = none ↔ longest free < need := by
  induction free with
  | nil => simpa [carve, longest] using positive
  | cons e rest inductionHypothesis =>
      rw [carve, longest_cons, Nat.max_lt]
      split
      · rename_i enough
        simp [Nat.not_lt.mpr enough]
      · rename_i short
        simp [Nat.lt_of_not_le short, ← inductionHypothesis]

/-- What is taken off lies in one range. -/
theorem le_longest_of_carve (carved : carve need free = some (start, rest)) :
    need ≤ longest free := by
  induction free generalizing rest with
  | nil => contradiction
  | cons e others inductionHypothesis =>
      rw [carve] at carved
      rw [longest_cons]
      split at carved
      · rename_i enough
        exact Nat.le_trans enough (Nat.le_max_left _ _)
      · rcases Option.map_eq_some_iff.mp carved with ⟨⟨offset, left⟩, found, equal⟩
        cases equal
        exact Nat.le_trans (inductionHypothesis found) (Nat.le_max_right _ _)

/-- Carving takes exactly its bytes off, from one range. -/
theorem total_carve (carved : carve need free = some (start, rest)) :
    total free = total rest + need ∧ longest free ≤ longest rest + need ∧
      rest.length ≤ free.length := by
  induction free generalizing rest with
  | nil => contradiction
  | cons e others inductionHypothesis =>
      rw [carve] at carved
      split at carved
      · rename_i enough
        cases carved
        rcases Nat.lt_or_eq_of_le enough with more | exactly
        · simp only [if_pos more, List.singleton_append, total_cons, longest_cons,
            List.length_cons]
          omega
        · simp only [exactly, Nat.lt_irrefl, if_false, List.nil_append, total_cons,
            longest_cons, List.length_cons]
          omega
      · rcases Option.map_eq_some_iff.mp carved with ⟨⟨offset, left⟩, found, equal⟩
        cases equal
        rcases inductionHypothesis found with ⟨total, longest, count⟩
        simp only [total_cons, longest_cons, List.length_cons]
        omega

/-- What carving leaves lies within what was free. -/
theorem exists_of_carve (carved : carve need free = some (start, rest)) :
    ∀ f ∈ rest, ∃ e ∈ free, e.offset ≤ f.offset ∧ f.stop = e.stop := by
  induction free generalizing rest with
  | nil => contradiction
  | cons e others inductionHypothesis =>
      have unchanged (f : Extent) (inRest : f ∈ others) :
          ∃ e' ∈ e :: others, e'.offset ≤ f.offset ∧ f.stop = e'.stop :=
        ⟨f, List.mem_cons_of_mem e inRest, Nat.le_refl _, rfl⟩
      rw [carve] at carved
      split at carved
      · rename_i enough
        cases carved
        intro f member
        rcases List.mem_append.mp member with isRemainder | inRest
        · refine ⟨e, List.mem_cons_self, ?_⟩
          split at isRemainder
          · rw [List.mem_singleton.mp isRemainder]
            simp only [stop]
            omega
          · contradiction
        · exact unchanged f inRest
      · rcases Option.map_eq_some_iff.mp carved with ⟨⟨offset, left⟩, found, equal⟩
        cases equal
        intro f member
        rcases List.mem_cons.mp member with rfl | inLeft
        · exact ⟨f, List.mem_cons_self, Nat.le_refl _, rfl⟩
        · rcases inductionHypothesis found f inLeft with ⟨g, inOthers, within⟩
          exact ⟨g, List.mem_cons_of_mem e inOthers, within⟩

theorem Spaced.carve (spaced : Spaced free) (carved : carve need free = some (start, rest)) :
    Spaced rest := by
  induction free generalizing rest with
  | nil => contradiction
  | cons e others inductionHypothesis =>
      rw [Extent.carve] at carved
      split at carved
      · rename_i enough
        cases carved
        split
        · rename_i more
          apply spaced.tail.cons
          · exact Nat.sub_pos_of_lt more
          · intro f member
            have before := spaced.before f member
            simp only [stop] at before ⊢
            omega
        · exact spaced.tail
      · rcases Option.map_eq_some_iff.mp carved with ⟨⟨offset, left⟩, found, equal⟩
        cases equal
        apply (inductionHypothesis spaced.tail found).cons
        · exact spaced.positive e List.mem_cons_self
        · intro f member
          rcases exists_of_carve found f member with ⟨g, inOthers, within, _⟩
          exact Nat.lt_of_lt_of_le (spaced.before g inOthers) within

/-! ## Releasing -/

@[simp]
theorem total_release : total (release freed free) = total free + freed.length := by
  induction free generalizing freed with
  | nil => simp [release]
  | cons e rest inductionHypothesis =>
      rw [release]
      split
      · simp only [inductionHypothesis, total_cons]
        omega
      · split
        · simp only [total_cons]
          omega
        · split
          · rw [total_cons, inductionHypothesis, total_cons]
            omega
          · rw [total_cons, Nat.add_comm]

/-- Joining ranges does not make them shorter. -/
theorem longest_release :
    max freed.length (longest free) ≤ longest (release freed free) := by
  induction free generalizing freed with
  | nil => simp [release, longest]
  | cons e rest inductionHypothesis =>
      rw [release]
      split
      · have joined := @inductionHypothesis ⟨e.offset, e.length + freed.length⟩
        simp only [longest_cons] at joined ⊢
        omega
      · split
        · simp only [longest_cons]
          omega
        · split
          · have released := @inductionHypothesis freed
            simp only [longest_cons]
            omega
          · simp only [longest_cons]
            omega

/-- A range starts where the released one or a free one did. -/
theorem offset_of_release : ∀ f ∈ release freed free,
    f.offset = freed.offset ∨ ∃ e ∈ free, f.offset = e.offset := by
  induction free generalizing freed with
  | nil => simp [release]
  | cons e rest inductionHypothesis =>
      intro f member
      rw [release] at member
      split at member
      · rcases inductionHypothesis f member with first | ⟨g, inRest, same⟩
        · exact Or.inr ⟨e, List.mem_cons_self, first⟩
        · exact Or.inr ⟨g, List.mem_cons_of_mem e inRest, same⟩
      · split at member
        · rcases List.mem_cons.mp member with rfl | inRest
          · exact Or.inl rfl
          · exact Or.inr ⟨f, List.mem_cons_of_mem e inRest, rfl⟩
        · split at member
          · rcases List.mem_cons.mp member with rfl | released
            · exact Or.inr ⟨f, List.mem_cons_self, rfl⟩
            · rcases inductionHypothesis f released with first | ⟨g, inRest, same⟩
              · exact Or.inl first
              · exact Or.inr ⟨g, List.mem_cons_of_mem e inRest, same⟩
          · rcases List.mem_cons.mp member with rfl | old
            · exact Or.inl rfl
            · exact Or.inr ⟨f, old, rfl⟩

/-- A range that lies apart from the free ones is joined with those it touches
and kept at a distance from the others. -/
theorem Spaced.release (spaced : Spaced free) (positive : 0 < freed.length)
    (apart : ∀ e ∈ free, e.stop ≤ freed.offset ∨ freed.stop ≤ e.offset) :
    Spaced (release freed free) := by
  induction free generalizing freed with
  | nil => exact ⟨by simpa [Extent.release] using positive, by simp [Extent.release]⟩
  | cons e rest inductionHypothesis =>
      have positiveHead := spaced.positive e List.mem_cons_self
      have apartHead := apart e List.mem_cons_self
      have apartRest (f : Extent) (member : f ∈ rest) := apart f (List.mem_cons_of_mem e member)
      have before := spaced.before
      rw [Extent.release]
      split
      · rename_i touches
        apply inductionHypothesis spaced.tail
        · exact Nat.add_pos_left positiveHead _
        · intro f member
          have after := before f member
          have away := apartRest f member
          simp only [stop] at touches after away ⊢
          omega
      · split
        · apply spaced.tail.cons
          · exact Nat.add_pos_left positive _
          · rename_i touches
            intro f member
            have after := before f member
            simp only [stop] at touches after ⊢
            omega
        · rename_i notBefore notAfter
          simp only [stop] at notBefore notAfter apartHead
          split
          · apply (inductionHypothesis spaced.tail positive apartRest).cons positiveHead
            intro f member
            simp only [stop]
            rcases offset_of_release f member with first | ⟨g, inRest, same⟩
            · omega
            · have after := before g inRest
              simp only [stop] at after
              omega
          · apply spaced.cons positive
            intro f member
            simp only [stop]
            rcases List.mem_cons.mp member with rfl | inRest
            · omega
            · have after := before f inRest
              simp only [stop] at after
              omega

end CodeLayout.Extent
