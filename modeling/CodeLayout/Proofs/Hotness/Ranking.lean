import CodeLayout.Proofs.Hotness.History
import Mathlib.Data.List.Permutation
import Mathlib.Order.Defs.LinearOrder

/-!
# The ranking of a history

The ranking follows from the history alone.  Every sampled method has a rank; more samples
come first, then the later compilation, and what was never compiled stays in the order of
its entries.  The last is due to the stability of the sort, as the order that is sorted by
does not look at entries.  More samples of a method take it towards the front, past methods
that keep their order.
-/

namespace CodeLayout.Hotness

/-! ## Sorting with ties -/

section Sorting

variable {α : Type} {le : α → α → Bool} {l : List α} {a b : α}

/-- Those that are tied keep their order. -/
theorem filter_mergeSort (trans : ∀ a b c, le a b → le b c → le a c)
    (total : ∀ a b, le a b || le b a) (a : α) (l : List α) :
    ((l.mergeSort le).filter fun b => le a b && le b a) = l.filter fun b => le a b && le b a := by
  have tied : (l.filter fun b => le a b && le b a).Pairwise fun b c => le b c := by
    refine List.pairwise_of_forall_mem_list fun b first c second => ?_
    rw [List.mem_filter, Bool.and_eq_true] at first second
    exact trans b a c first.2.2 second.2.1
  have kept := (List.sublist_mergeSort trans total tied List.filter_sublist).filter
    fun b => le a b && le b a
  rw [List.filter_filter] at kept
  simp only [Bool.and_self] at kept
  exact (kept.eq_of_length ((List.mergeSort_perm l le).filter _).length_eq.symm).symm

/-- Two of a sorted list that might as well change places stood in that order before. -/
theorem pairwise_mergeSort_stable (trans : ∀ a b c, le a b → le b c → le a c)
    (total : ∀ a b, le a b || le b a) (l : List α) :
    (l.mergeSort le).Pairwise fun a b => le a b ∧ (le b a → [a, b].Sublist l) := by
  rw [List.pairwise_iff_forall_sublist]
  intro a b pair
  have sorted : le a b :=
    List.pairwise_iff_forall_sublist.mp (List.pairwise_mergeSort trans total l) pair
  refine ⟨sorted, fun tied => ?_⟩
  have reflexive : le a a := by simpa using total a a
  have both := pair.filter fun c => le a c && le c a
  rw [filter_mergeSort trans total] at both
  simp only [List.filter_cons, List.filter_nil, reflexive, sorted, tied, Bool.and_self,
    if_true] at both
  exact both.trans List.filter_sublist

/-- The place of a member of a list in strict order is the number of others before it. -/
theorem idxOf_eq_countP [DecidableEq α] {before : α → α → Prop} [DecidablePred (before · a)]
    (ordered : l.Pairwise before) (asymm : ∀ b c, before b c → ¬before c b) (member : a ∈ l) :
    l.idxOf a = (l.filter (· ≠ a)).countP (before · a) := by
  induction l with
  | nil => contradiction
  | cons b rest inductionHypothesis =>
      rw [List.pairwise_cons] at ordered
      by_cases same : b = a
      · subst same
        have none : (rest.filter (· ≠ b)).countP (before · b) = 0 := by
          refine List.countP_eq_zero.mpr fun c later => ?_
          simpa using asymm b c (ordered.1 c (List.mem_filter.mp later).1)
        rw [List.idxOf_cons_self, List.filter_cons_of_neg (by simp), none]
      · have later : a ∈ rest := (List.mem_cons.mp member).resolve_left (Ne.symm same)
        rw [List.idxOf_cons_ne _ same, inductionHypothesis ordered.2 later,
          List.filter_cons_of_pos (by simpa using same),
          List.countP_cons_of_pos (by simpa using ordered.1 a later)]

/-- At most the others come before a member. -/
theorem idxOf_le_length_filter [DecidableEq α] (a : α) (l : List α) :
    l.idxOf a ≤ (l.filter (· ≠ a)).length := by
  induction l with
  | nil => exact Nat.le_refl 0
  | cons b rest inductionHypothesis =>
      by_cases same : b = a
      · subst same
        rw [List.idxOf_cons_self]
        exact Nat.zero_le _
      · rw [List.idxOf_cons_ne _ same, List.filter_cons_of_pos (by simpa using same)]
        exact Nat.succ_le_succ inductionHypothesis

end Sorting

/-! ## What a ranking is -/

variable {m n : Method} {history : List Action}

/-- A method comes before another one in the ranking of a history. -/
inductive Outranks (history : List Action) (m n : Method) : Prop where
  | sampled (more : total n history < total m history)
  | compiled (tied : total m history = total n history)
      (later : compiledAt n history < compiledAt m history)
  | created (tied : total m history = total n history) (first : compiledAt m history = none)
      (second : compiledAt n history = none) (earlier : createdAt m history < createdAt n history)

/-- Each sampled method once, in the order of their ranks. -/
structure Ranks (history : List Action) (ranking : List Method) : Prop where
  once : ranking.Nodup
  sampled : ∀ m, m ∈ ranking ↔ 0 < total m history
  ordered : ranking.Pairwise (Outranks history)

/-- A method stands no later than before, and the others stand as before. -/
structure Promotes (m : Method) (before after : List Method) : Prop where
  noLater : after.idxOf m ≤ before.idxOf m
  others : after.filter (· ≠ m) = before.filter (· ≠ m)

theorem Outranks.asymm (first : Outranks history m n) : ¬Outranks history n m := by
  intro second
  cases first with
  | sampled more =>
      cases second with
      | sampled fewer => omega
      | compiled tied => omega
      | created tied => omega
  | compiled tied later =>
      cases second with
      | sampled more => omega
      | compiled _ earlier => exact place_asymm later earlier
      | created _ _ never => exact Option.not_lt_none (never ▸ later)
  | created tied _ never earlier =>
      cases second with
      | sampled more => omega
      | compiled _ later => exact Option.not_lt_none (never ▸ later)
      | created _ _ _ later => exact place_asymm earlier later

/-! ## The ranking of the profiles -/

theorem Profile.before_iff (p q : Profile) :
    p.before q ↔
      q.samples.toNat < p.samples.toNat ∨
        p.samples.toNat = q.samples.toNat ∧ q.compiled ≤ p.compiled := by
  simp only [before, ← UInt64.toNat_inj, UInt64.lt_iff_toNat_lt]
  split
  · rename_i tied
    simp [tied]
  · rename_i apart
    simp [apart]

theorem Profile.before_trans (p q r : Profile) (first : p.before q) (second : q.before r) :
    p.before r := by
  rw [before_iff] at *
  omega

theorem Profile.before_total (p q : Profile) : p.before q || q.before p := by
  rw [Bool.or_eq_true, before_iff, before_iff]
  omega

/-- The ranking sorts the entries that have samples. -/
theorem ranking_ofHistory (history : List Action) :
    (ofHistory history).ranking =
      ((entries history).filter fun m => (profile history m).samples ≠ 0).mergeSort
        fun m n => (profile history m).before (profile history n) := by
  rw [ranking, ofHistory_eq, List.filter_map,
    ← List.map_mergeSort (r := fun m n => (profile history m).before (profile history n))
      (fun _ _ _ _ => rfl), List.map_map]
  exact List.map_id _

theorem toNat_samples (small : total m history < UInt64.size) :
    (profile history m).samples.toNat = total m history := by
  rw [profile]
  exact UInt64.toNat_ofNat_of_lt small

theorem samples_ne_zero_iff (small : total m history < UInt64.size) :
    (profile history m).samples ≠ 0 ↔ 0 < total m history := by
  rw [ne_eq, ← UInt64.toNat_inj, toNat_samples small, UInt64.toNat_zero]
  exact Nat.pos_iff_ne_zero.symm

/-- Where neither of two methods was compiled after the other, neither was compiled at all. -/
theorem never_compiled (differ : m ≠ n) (first : ¬compiledAt m history < compiledAt n history)
    (second : ¬compiledAt n history < compiledAt m history) :
    compiledAt m history = none ∧ compiledAt n history = none := by
  cases isFirst : compiledAt m history with
  | none =>
      rw [isFirst, Option.none_lt, Option.not_isSome_iff_eq_none] at first
      exact ⟨rfl, first⟩
  | some i =>
      cases isSecond : compiledAt n history with
      | none =>
          rw [isFirst, isSecond] at second
          exact absurd Option.none_lt_some second
      | some j =>
          rw [isFirst, isSecond, Option.some_lt_some] at first second
          have same : i = j := by omega
          exact absurd (compiledAt_inj isFirst (same ▸ isSecond)) differ

/-- What the sort puts first has the better rank. -/
theorem outranks_of_before (bounded : ∀ m, total m history < UInt64.size) (differ : m ≠ n)
    (sorted : (profile history m).before (profile history n))
    (tied : (profile history n).before (profile history m) →
      createdAt m history < createdAt n history) : Outranks history m n := by
  rw [Profile.before_iff, toNat_samples (bounded m), toNat_samples (bounded n)] at sorted tied
  by_cases more : total n history < total m history
  · exact .sampled more
  · rcases sorted.resolve_left more with ⟨same, number⟩
    by_cases later : compiledAt n history < compiledAt m history
    · exact .compiled same later
    · have notLater : compiledNumber m history ≤ compiledNumber n history :=
        Nat.not_lt.mp (mt (compiledNumber_lt_iff n m history).mp later)
      have notEarlier : ¬compiledAt m history < compiledAt n history :=
        mt (compiledNumber_lt_iff m n history).mpr (Nat.not_lt.mpr number)
      have never := never_compiled differ notEarlier later
      exact .created same never.1 never.2 (tied (.inr ⟨same.symm, notLater⟩))

theorem ranks_ofHistory (bounded : ∀ m, total m history < UInt64.size) :
    Ranks history (ofHistory history).ranking := by
  rw [ranking_ofHistory]
  have once := (nodup_entries history).filter fun m => decide ((profile history m).samples ≠ 0)
  have apart := (List.mergeSort_perm _ fun m n =>
    (profile history m).before (profile history n)).nodup_iff.mpr once
  have stable := pairwise_mergeSort_stable
    (fun k m n => (profile history k).before_trans (profile history m) (profile history n))
    (fun m n => (profile history m).before_total (profile history n))
    ((entries history).filter fun m => (profile history m).samples ≠ 0)
  refine ⟨apart, fun m => ?_, (stable.and apart).imp fun {m n} ⟨⟨sorted, tied⟩, differ⟩ => ?_⟩
  · rw [List.mem_mergeSort, List.mem_filter, decide_eq_true_iff, samples_ne_zero_iff (bounded m)]
    exact and_iff_right_of_imp mem_entries_of_sampled
  · refine outranks_of_before bounded differ sorted fun tie => ?_
    exact List.pairwise_iff_forall_sublist.mp (pairwise_entries history)
      ((tied tie).trans List.filter_sublist)

/-! ## Further samples -/

variable {samples : UInt64} {before after final : List Method}

theorem Outranks.total_le (outranks : Outranks history m n) :
    total n history ≤ total m history := by
  cases outranks with
  | sampled more => exact Nat.le_of_lt more
  | compiled tied => exact Nat.le_of_eq tied.symm
  | created tied => exact Nat.le_of_eq tied.symm

/-- Samples of one method put no other one before any that has a rank. -/
theorem Outranks.of_sample {k : Method} (other : n ≠ m) (ranked : 0 < total k history)
    (outranks : Outranks (.sample m samples :: history) n k) : Outranks history n k := by
  have same : total n (.sample m samples :: history) = total n history := by
    simp [total, Ne.symm other]
  have grown : total k history ≤ total k (.sample m samples :: history) := Nat.le_add_right _ _
  have le := outranks.total_le
  by_cases more : total k history < total n history
  · exact .sampled more
  · have tied : total n history = total k history := by omega
    cases outranks with
    | sampled more => omega
    | compiled _ later => exact .compiled tied later
    | created _ first second earlier =>
        rcases exists_createdAt (mem_entries_of_sampled ranked) with ⟨i, created⟩
        rw [createdAt, createdAt, if_neg (Ne.symm other), Option.or_none, created,
          Option.some_or, ← created] at earlier
        exact .created tied first second earlier

theorem Promotes.refl (m : Method) (ranking : List Method) : Promotes m ranking ranking :=
  ⟨Nat.le_refl _, rfl⟩

theorem Promotes.trans (first : Promotes m before after) (second : Promotes m after final) :
    Promotes m before final :=
  ⟨Nat.le_trans second.noLater first.noLater, second.others.trans first.others⟩

theorem Ranks.others (first : Ranks history before)
    (second : Ranks (.sample m samples :: history) after) :
    after.filter (· ≠ m) = before.filter (· ≠ m) := by
  have members (n : Method) : n ∈ after.filter (· ≠ m) ↔ n ∈ before.filter (· ≠ m) := by
    rw [List.mem_filter, List.mem_filter, first.sampled, second.sampled, decide_eq_true_iff]
    refine and_congr_left fun other => ?_
    rw [total, if_neg (Ne.symm other), Nat.add_zero]
  have perm := (List.perm_ext_iff_of_nodup (second.once.filter _) (first.once.filter _)).mpr members
  have ordered : (after.filter (· ≠ m)).Pairwise (Outranks history) := by
    refine (second.ordered.filter _).imp_of_mem fun {n k} isFirst isSecond outranks => ?_
    have other : n ≠ m := by simpa using (List.mem_filter.mp isFirst).2
    have ranked := (first.sampled k).mp (List.mem_filter.mp ((members k).mp isSecond)).1
    exact outranks.of_sample other ranked
  exact perm.eq_of_pairwise (fun _ _ _ _ one two => absurd two one.asymm) ordered
    (first.ordered.filter _)

open Classical in
theorem Ranks.promotes (first : Ranks history before)
    (second : Ranks (.sample m samples :: history) after) : Promotes m before after := by
  refine ⟨?_, first.others second⟩
  by_cases ranked : m ∈ before
  · have sampled := (first.sampled m).mp ranked
    have still : m ∈ after :=
      (second.sampled m).mpr (Nat.lt_of_lt_of_le sampled (Nat.le_add_right _ _))
    calc
      after.idxOf m =
          (after.filter (· ≠ m)).countP (Outranks (.sample m samples :: history) · m) :=
        idxOf_eq_countP second.ordered (fun _ _ => Outranks.asymm) still
      _ = (before.filter (· ≠ m)).countP (Outranks (.sample m samples :: history) · m) := by
        rw [first.others second]
      _ ≤ (before.filter (· ≠ m)).countP (Outranks history · m) := by
        refine List.countP_mono_left fun n member outranks => ?_
        have other : n ≠ m := by simpa using (List.mem_filter.mp member).2
        exact decide_eq_true ((of_decide_eq_true outranks).of_sample other sampled)
      _ = before.idxOf m :=
        (idxOf_eq_countP first.ordered (fun _ _ => Outranks.asymm) ranked).symm
  · calc
      after.idxOf m ≤ (after.filter (· ≠ m)).length := idxOf_le_length_filter m after
      _ = (before.filter (· ≠ m)).length := by rw [first.others second]
      _ ≤ before.length := List.length_filter_le _ _
      _ = before.idxOf m := (List.idxOf_eq_length_iff.mpr ranked).symm

theorem Bounded.older {action : Action} (bounded : Bounded (action :: history)) : Bounded history :=
  fun m _ suffix => bounded m _ (suffix.trans (List.suffix_cons _ _))

theorem Bounded.total_lt (bounded : Bounded history) (m : Method) : total m history < UInt64.size :=
  bounded m history List.suffix_rfl

/-- All samples that were ever recorded. -/
def recorded : List Action → Nat
  | [] => 0
  | .sample _ samples :: earlier => recorded earlier + samples.toNat
  | .compile _ :: earlier | .forget _ :: earlier | .reset :: earlier => recorded earlier

theorem total_le_recorded (m : Method) (history : List Action) :
    total m history ≤ recorded history := by
  induction history with
  | nil => exact Nat.le_refl 0
  | cons action earlier inductionHypothesis =>
      cases action with
      | sample n samples =>
          rw [total, recorded]
          split <;> omega
      | compile n => exact inductionHypothesis
      | forget n =>
          rw [total]
          split
          · exact Nat.zero_le _
          · exact inductionHypothesis
      | reset => exact Nat.zero_le _

/-- A single count cannot reach the end of its range if all samples together do not. -/
theorem bounded_of_recorded (few : recorded history < UInt64.size) : Bounded history := by
  induction history with
  | nil =>
      intro m earlier suffix
      rw [List.suffix_nil.mp suffix]
      exact Nat.zero_lt_succ _
  | cons action earlier inductionHypothesis =>
      have fewer : recorded earlier ≤ recorded (action :: earlier) := by
        cases action <;> simp [recorded]
      intro m older suffix
      rcases List.suffix_cons_iff.mp suffix with rfl | suffix
      · exact Nat.lt_of_le_of_lt (total_le_recorded m _) few
      · exact inductionHypothesis (Nat.lt_of_le_of_lt fewer few) m older suffix

theorem promotes_samples (counts : List UInt64)
    (bounded : Bounded (counts.map (Action.sample m) ++ history)) :
    Promotes m (ofHistory history).ranking
      (ofHistory (counts.map (Action.sample m) ++ history)).ranking := by
  induction counts with
  | nil => exact Promotes.refl _ _
  | cons samples earlier inductionHypothesis =>
      rw [List.map_cons, List.cons_append] at bounded ⊢
      have first := ranks_ofHistory bounded.older.total_lt
      have second := ranks_ofHistory bounded.total_lt
      exact (inductionHypothesis bounded.older).trans (first.promotes second)

/-- As long as no count reaches the end of its range, the ranking has each sampled method in
its rank, and further samples of a method take it no later and leave the others in order. -/
theorem ranking_of_bounded (bounded : Bounded history) :
    Ranks history (ofHistory history).ranking ∧
      ∀ (m : Method) (counts : List UInt64), Bounded (counts.map (Action.sample m) ++ history) →
        Promotes m (ofHistory history).ranking
          (ofHistory (counts.map (Action.sample m) ++ history)).ranking :=
  ⟨ranks_ofHistory bounded.total_lt, fun _ => promotes_samples⟩

def rival (name : String) : Method := ⟨"Main", name, "()V"⟩

/-- Three methods with as many samples each: one was compiled, and of the others one is
older but was forgotten in between.  The samples of a fourth one were reset. -/
def rivalry : List Action :=
  [.sample (rival "compiled") 3, .compile (rival "compiled"), .sample (rival "late") 3,
    .forget (rival "late"), .sample (rival "early") 3, .reset, .sample (rival "late") 5,
    .sample (rival "idle") 9]

theorem ranking_rivalry :
    Bounded rivalry ∧ Ranks rivalry [rival "compiled", rival "early", rival "late"] ∧
      Promotes (rival "late") [rival "compiled", rival "early", rival "late"]
        [rival "late", rival "compiled", rival "early"] := by
  have bounded : Bounded rivalry := bounded_of_recorded (by decide)
  have still : Bounded ([1, 1].map (Action.sample (rival "late")) ++ rivalry) :=
    bounded_of_recorded (by decide)
  have ranked := ranking_of_bounded bounded
  have before : (ofHistory rivalry).ranking =
      [rival "compiled", rival "early", rival "late"] := by cbv
  have after : (ofHistory ([1, 1].map (Action.sample (rival "late")) ++ rivalry)).ranking =
      [rival "late", rival "compiled", rival "early"] := by cbv
  have promoted := ranked.2 (rival "late") [1, 1] still
  rw [before] at ranked promoted
  rw [after] at promoted
  exact ⟨bounded, ranked.1, promoted⟩

end CodeLayout.Hotness
