import CodeLayout.Heap

/-!
# Coverage

How many ranges of a list contain an offset.  Taking bytes off a free list and
giving a range back to it change this number at the offsets of that range, by
one, and nowhere else, whatever ranges are split or joined on the way.
-/

namespace CodeLayout.Extent

/-- The range contains an offset. -/
def covers (e : Extent) (x : Nat) : Bool :=
  decide (e.offset ≤ x) && decide (x < e.stop)

/-- The number of ranges in a list that contain an offset. -/
def coverage (pieces : List Extent) (x : Nat) : Nat :=
  pieces.countP (·.covers x)

theorem covers_iff (e : Extent) (x : Nat) :
    e.covers x = true ↔ e.offset ≤ x ∧ x < e.offset + e.length := by
  simp only [covers, Bool.and_eq_true, decide_eq_true_eq]
  rfl

@[simp]
theorem coverage_nil (x : Nat) : coverage [] x = 0 :=
  rfl

@[simp]
theorem coverage_cons (e : Extent) (rest : List Extent) (x : Nat) :
    coverage (e :: rest) x = coverage rest x + if e.covers x then 1 else 0 :=
  List.countP_cons

@[simp]
theorem coverage_append (first second : List Extent) (x : Nat) :
    coverage (first ++ second) x = coverage first x + coverage second x :=
  List.countP_append

theorem coverage_perm {first second : List Extent} (same : first.Perm second) (x : Nat) :
    coverage first x = coverage second x :=
  same.countP_eq _

/-- Two ranges that touch contain together what their union contains. -/
theorem covers_join {e f : Extent} (touch : e.stop = f.offset) (x : Nat) :
    (if covers ⟨e.offset, e.length + f.length⟩ x then 1 else 0) =
      (if e.covers x then 1 else 0) + if f.covers x then 1 else 0 := by
  simp only [stop] at touch
  simp only [covers_iff]
  split <;> split <;> split <;> omega

/-- Carving takes its range out of the free ones. -/
theorem coverage_carve {need start : Nat} {free rest : List Extent}
    (carved : carve need free = some (start, rest)) (x : Nat) :
    coverage free x = coverage rest x + if covers ⟨start, need⟩ x then 1 else 0 := by
  induction free generalizing rest with
  | nil => contradiction
  | cons e others inductionHypothesis =>
      rw [carve] at carved
      split at carved
      · rename_i enough
        cases carved
        rcases Nat.lt_or_eq_of_le enough with more | exactly
        · have split : covers ⟨e.offset, need + (e.length - need)⟩ x = e.covers x := by
            rw [Nat.add_sub_cancel' enough]
          have joined := covers_join (e := ⟨e.offset, need⟩)
            (f := ⟨e.offset + need, e.length - need⟩) rfl x
          simp only [split] at joined
          simp only [if_pos more, List.singleton_append, coverage_cons, joined]
          omega
        · simp [exactly]
      · rcases Option.map_eq_some_iff.mp carved with ⟨⟨offset, left⟩, found, equal⟩
        cases equal
        rw [coverage_cons, coverage_cons, inductionHypothesis found]
        omega

/-- Releasing gives the range back to the free ones. -/
theorem coverage_release (freed : Extent) (free : List Extent) (x : Nat) :
    coverage (release freed free) x =
      coverage free x + if freed.covers x then 1 else 0 := by
  induction free generalizing freed with
  | nil => simp [release]
  | cons e rest inductionHypothesis =>
      rw [release]
      split
      · rename_i before
        rw [inductionHypothesis, covers_join before, coverage_cons]
        omega
      · split
        · rename_i after
          rw [coverage_cons, coverage_cons, covers_join after]
          omega
        · split
          · rw [coverage_cons, coverage_cons, inductionHypothesis]
            omega
          · rw [coverage_cons]

/-- Where no offset is contained twice, no two ranges share one. -/
theorem pairwise_of_coverage_le_one {pieces : List Extent}
    (once : ∀ x, coverage pieces x ≤ 1) :
    pieces.Pairwise fun e f => ∀ x, ¬ (e.covers x = true ∧ f.covers x = true) := by
  induction pieces with
  | nil => exact List.Pairwise.nil
  | cons e rest inductionHypothesis =>
      apply List.Pairwise.cons
      · rintro f member x ⟨inFirst, inSecond⟩
        have counted : 0 < coverage rest x := List.countP_pos_iff.mpr ⟨f, member, inSecond⟩
        have atMost := once x
        rw [coverage_cons, if_pos inFirst] at atMost
        omega
      · apply inductionHypothesis
        intro x
        have atMost := once x
        rw [coverage_cons] at atMost
        omega

end CodeLayout.Extent
