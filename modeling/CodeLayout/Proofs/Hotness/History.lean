import CodeLayout.Hotness
import Mathlib.Data.List.Nodup

/-!
# Histories of samples

A history lists what was recorded, newest first.  It alone says for each method how often
it was sampled since the last reset or removal, when its entry was created, and when it
was last compiled since then.  The profiles that are kept say the same: there is one for
each entry, in the order in which the entries were created.
-/

namespace CodeLayout.Hotness

/-- What may be recorded. -/
inductive Action where
  /-- One sample of a method, or several. -/
  | sample (m : Method) (samples : UInt64)
  | compile (m : Method)
  | forget (m : Method)
  | reset
deriving DecidableEq, Repr

def Action.isCompile : Action → Bool
  | compile _ => true
  | _ => false

/-- Record one action. -/
def record (h : Hotness) : Action → Hotness
  | .sample m samples => h.sample m samples
  | .compile m => h.compile m
  | .forget m => h.forget m
  | .reset => h.reset

/-- What is kept after a history, whose newest action comes first. -/
def ofHistory : List Action → Hotness
  | [] => empty
  | action :: earlier => (ofHistory earlier).record action

/-! ## What a history says -/

/-- Samples of a method since the last reset or removal. -/
def total (m : Method) : List Action → Nat
  | [] => 0
  | .sample n samples :: earlier => total m earlier + if n = m then samples.toNat else 0
  | .compile _ :: earlier => total m earlier
  | .forget n :: earlier => if n = m then 0 else total m earlier
  | .reset :: _ => 0

/-- How many actions came before the one that created the entry of a method; nothing if
there is no entry. -/
def createdAt (m : Method) : List Action → Option Nat
  | [] => none
  | .sample n _ :: earlier | .compile n :: earlier =>
    (createdAt m earlier).or (if n = m then some earlier.length else none)
  | .forget n :: earlier => if n = m then none else createdAt m earlier
  | .reset :: earlier => createdAt m earlier

/-- How many actions came before the last compilation of a method; nothing if it was not
compiled since its entry was created. -/
def compiledAt (m : Method) : List Action → Option Nat
  | [] => none
  | .compile n :: earlier => if n = m then some earlier.length else compiledAt m earlier
  | .forget n :: earlier => if n = m then none else compiledAt m earlier
  | .sample _ _ :: earlier | .reset :: earlier => compiledAt m earlier

/-- No count of samples has ever reached the end of its range. -/
def Bounded (history : List Action) : Prop :=
  ∀ m earlier, earlier <:+ history → total m earlier < UInt64.size

/-! ## Entries and profiles -/

variable {m n : Method} {history : List Action} {i : Nat}

/-- Put a method behind the others, unless it is among them. -/
def enter (m : Method) (methods : List Method) : List Method :=
  if m ∈ methods then methods else methods ++ [m]

/-- The methods that have entries, oldest entry first. -/
def entries : List Action → List Method
  | [] => []
  | .sample m _ :: earlier | .compile m :: earlier => enter m (entries earlier)
  | .forget m :: earlier => (entries earlier).filter (· ≠ m)
  | .reset :: earlier => entries earlier

/-- The number of compilations up to the last one of a method; zero if it was not compiled
since its entry was created. -/
def compiledNumber (m : Method) : List Action → Nat
  | [] => 0
  | .compile n :: earlier =>
    if n = m then earlier.countP Action.isCompile + 1 else compiledNumber m earlier
  | .forget n :: earlier => if n = m then 0 else compiledNumber m earlier
  | .sample _ _ :: earlier | .reset :: earlier => compiledNumber m earlier

/-- What a history says about a method. -/
def profile (history : List Action) (m : Method) : Profile where
  method := m
  samples := UInt64.ofNat (total m history)
  compiled := compiledNumber m history

theorem mem_enter {methods : List Method} : n ∈ enter m methods ↔ n ∈ methods ∨ n = m := by
  rw [enter]
  split
  · rename_i old
    exact ⟨Or.inl, Or.rec id fun same => same ▸ old⟩
  · simp

theorem mem_entries_forget :
    n ∈ entries (.forget m :: history) ↔ n ∈ entries history ∧ ¬m = n := by
  rw [entries, List.mem_filter, decide_eq_true_iff, ne_comm]

theorem nodup_enter {methods : List Method} (nodup : methods.Nodup) : (enter m methods).Nodup := by
  rw [enter]
  split
  · exact nodup
  · rename_i new
    rw [← List.concat_eq_append]
    exact nodup.concat new

theorem nodup_entries (history : List Action) : (entries history).Nodup := by
  induction history with
  | nil => exact List.nodup_nil
  | cons action earlier inductionHypothesis =>
      cases action with
      | sample m samples => exact nodup_enter inductionHypothesis
      | compile m => exact nodup_enter inductionHypothesis
      | forget m => exact inductionHypothesis.filter _
      | reset => exact inductionHypothesis

/-- A history says nothing about a method. -/
structure Unknown (m : Method) (history : List Action) : Prop where
  total_eq : total m history = 0
  number_eq : compiledNumber m history = 0
  createdAt_eq : createdAt m history = none
  compiledAt_eq : compiledAt m history = none

/-- Without an entry nothing is known of a method. -/
theorem unknown_of_not_mem (absent : m ∉ entries history) : Unknown m history := by
  induction history with
  | nil => exact ⟨rfl, rfl, rfl, rfl⟩
  | cons action earlier inductionHypothesis =>
      cases action with
      | sample n samples =>
          rw [entries, mem_enter, not_or] at absent
          have ⟨unsampled, number, created, compiled⟩ := inductionHypothesis absent.1
          constructor <;> simp [total, compiledNumber, createdAt, compiledAt, unsampled, number,
            created, compiled, Ne.symm absent.2]
      | compile n =>
          rw [entries, mem_enter, not_or] at absent
          have ⟨unsampled, number, created, compiled⟩ := inductionHypothesis absent.1
          constructor <;> simp [total, compiledNumber, createdAt, compiledAt, unsampled, number,
            created, compiled, Ne.symm absent.2]
      | forget n =>
          by_cases same : n = m
          · constructor <;> simp [total, compiledNumber, createdAt, compiledAt, same]
          · have ⟨unsampled, number, created, compiled⟩ := inductionHypothesis fun member =>
              absent (mem_entries_forget.mpr ⟨member, same⟩)
            constructor <;> simp [total, compiledNumber, createdAt, compiledAt, unsampled, number,
              created, compiled]
      | reset =>
          have known := inductionHypothesis absent
          exact ⟨rfl, known.number_eq, known.createdAt_eq, known.compiledAt_eq⟩

theorem mem_entries_of_sampled (sampled : 0 < total m history) : m ∈ entries history :=
  Decidable.byContradiction fun absent =>
    Nat.ne_of_gt sampled (unknown_of_not_mem absent).total_eq

/-- A change of one profile, of a new one if need be, leaves the others as they are. -/
theorem update_map {change : Profile → Profile} {f g : Method → Profile} {methods : List Method}
    (nodup : methods.Nodup) (named : ∀ n, (f n).method = n) (fresh : m ∉ methods → f m = ⟨m, 0, 0⟩)
    (changed : change (f m) = g m) (others : ∀ n, n ≠ m → f n = g n) :
    update change m (methods.map f) = (enter m methods).map g := by
  induction methods with
  | nil =>
      have single : change ⟨m, 0, 0⟩ = g m := fresh List.not_mem_nil ▸ changed
      simp [update, enter, single]
  | cons n rest inductionHypothesis =>
      rw [List.nodup_cons] at nodup
      rw [List.map_cons, update, named]
      by_cases same : n = m
      · subst same
        have kept : rest.map f = rest.map g :=
          List.map_congr_left fun k member => others k fun equal => nodup.1 (equal ▸ member)
        simp [enter, changed, kept]
      · have later := inductionHypothesis nodup.2 fun new => fresh (by simp [Ne.symm same, new])
        have put : enter m (n :: rest) = n :: enter m rest := by
          by_cases old : m ∈ rest
          · simp [enter, old]
          · simp [enter, old, Ne.symm same]
        rw [if_neg same, later, put, List.map_cons, others n same]

theorem profile_of_not_mem (absent : m ∉ entries history) : profile history m = ⟨m, 0, 0⟩ := by
  have unknown := unknown_of_not_mem absent
  rw [profile, unknown.total_eq, unknown.number_eq]
  rfl

theorem update_profiles {change : Profile → Profile} {g : Method → Profile}
    (changed : change (profile history m) = g m) (others : ∀ n, n ≠ m → profile history n = g n) :
    update change m ((entries history).map (profile history)) =
      (enter m (entries history)).map g :=
  update_map (nodup_entries history) (fun _ => rfl) profile_of_not_mem changed others

/-- The profiles that are kept are those of the entries, as the history says them. -/
theorem ofHistory_eq (history : List Action) :
    ofHistory history =
      ⟨(entries history).map (profile history), history.countP Action.isCompile⟩ := by
  induction history with
  | nil => rfl
  | cons action earlier inductionHypothesis =>
      rw [ofHistory, inductionHypothesis]
      cases action with
      | sample m samples =>
          rw [record, sample, update_profiles (g := profile (.sample m samples :: earlier))]
          · rfl
          · simp [profile, total, compiledNumber, UInt64.ofNat_add]
          · intro n other
            simp [profile, total, compiledNumber, Ne.symm other]
      | compile m =>
          rw [record, compile, update_profiles (g := profile (.compile m :: earlier)),
            List.countP_cons_of_pos rfl]
          · rfl
          · simp [profile, total, compiledNumber]
          · intro n other
            simp [profile, total, compiledNumber, Ne.symm other]
      | forget m =>
          have kept : ∀ n ∈ entries (.forget m :: earlier),
              profile earlier n = profile (.forget m :: earlier) n := by
            intro n member
            simp [profile, total, compiledNumber, mem_entries_forget.mp member]
          rw [record, forget, List.filter_map]
          exact congrArg (Hotness.mk · _) (List.map_congr_left kept)
      | reset =>
          rw [record, reset, List.map_map]
          rfl

/-- No more compilations are counted than actions were recorded. -/
theorem compilations_le_length (history : List Action) :
    (ofHistory history).compilations ≤ history.length := by
  rw [ofHistory_eq]
  exact List.countP_le_length

/-! ## The order of entries -/

theorem createdAt_lt (created : createdAt m history = some i) : i < history.length := by
  induction history with
  | nil => contradiction
  | cons action earlier inductionHypothesis =>
      rw [List.length_cons]
      have older (created : createdAt m earlier = some i) : i < earlier.length + 1 :=
        Nat.lt_succ_of_lt (inductionHypothesis created)
      have newer {n : Method} (created : (createdAt m earlier).or
          (if n = m then some earlier.length else none) = some i) : i < earlier.length + 1 := by
        rcases Option.or_eq_some_iff.mp created with old | ⟨_, new⟩
        · exact older old
        · split at new
          · cases new
            exact Nat.lt_succ_self _
          · contradiction
      cases action with
      | sample n samples => exact newer created
      | compile n => exact newer created
      | forget n =>
          rw [createdAt] at created
          split at created
          · contradiction
          · exact older created
      | reset => exact older created

theorem exists_createdAt (member : m ∈ entries history) : ∃ i, createdAt m history = some i := by
  induction history with
  | nil => contradiction
  | cons action earlier inductionHypothesis =>
      have newer {n : Method} (member : m ∈ enter n (entries earlier)) :
          ∃ i, (createdAt m earlier).or (if n = m then some earlier.length else none) = some i := by
        rcases mem_enter.mp member with old | rfl
        · rcases inductionHypothesis old with ⟨i, created⟩
          exact ⟨i, by rw [created, Option.some_or]⟩
        · cases createdAt m earlier with
          | none => exact ⟨earlier.length, by simp⟩
          | some i => exact ⟨i, rfl⟩
      cases action with
      | sample n samples => exact newer member
      | compile n => exact newer member
      | forget n =>
          rcases mem_entries_forget.mp member with ⟨old, other⟩
          rw [createdAt, if_neg other]
          exact inductionHypothesis old
      | reset => exact inductionHypothesis member

/-- Entries stand in the order in which they were created. -/
theorem pairwise_entries (history : List Action) :
    (entries history).Pairwise fun m n => createdAt m history < createdAt n history := by
  induction history with
  | nil => exact List.Pairwise.nil
  | cons action earlier inductionHypothesis =>
      have entered (k : Method) : (enter k (entries earlier)).Pairwise fun m n =>
          (createdAt m earlier).or (if k = m then some earlier.length else none) <
            (createdAt n earlier).or (if k = n then some earlier.length else none) := by
        have kept : (entries earlier).Pairwise fun m n =>
            (createdAt m earlier).or (if k = m then some earlier.length else none) <
              (createdAt n earlier).or (if k = n then some earlier.length else none) := by
          refine inductionHypothesis.imp_of_mem fun {m n} first second before => ?_
          rcases exists_createdAt first with ⟨i, isFirst⟩
          rcases exists_createdAt second with ⟨j, isSecond⟩
          rw [isFirst, isSecond] at before ⊢
          exact before
        rw [enter]
        split
        · exact kept
        · rename_i new
          refine List.pairwise_append.mpr ⟨kept, List.pairwise_singleton _ _, ?_⟩
          intro m member n isLast
          rcases exists_createdAt member with ⟨i, created⟩
          rw [List.mem_singleton.mp isLast, created, (unknown_of_not_mem new).createdAt_eq,
            if_pos rfl]
          exact createdAt_lt created
      cases action with
      | sample k samples => exact entered k
      | compile k => exact entered k
      | forget k =>
          refine (inductionHypothesis.filter _).imp_of_mem fun {m n} first second before => ?_
          rw [createdAt, createdAt, if_neg (mem_entries_forget.mp first).2,
            if_neg (mem_entries_forget.mp second).2]
          exact before
      | reset => exact inductionHypothesis

/-! ## The order of compilations -/

/-- Of two places at most one comes before the other. -/
theorem place_asymm {a b : Option Nat} (before : a < b) : ¬ b < a := by
  cases a with
  | none => exact Option.not_lt_none
  | some i =>
      cases b with
      | none => exact absurd before Option.not_lt_none
      | some j =>
          rw [Option.some_lt_some] at before ⊢
          exact Nat.lt_asymm before

theorem compiledAt_lt (compiled : compiledAt m history = some i) : i < history.length := by
  induction history with
  | nil => contradiction
  | cons action earlier inductionHypothesis =>
      rw [List.length_cons]
      have older (compiled : compiledAt m earlier = some i) : i < earlier.length + 1 :=
        Nat.lt_succ_of_lt (inductionHypothesis compiled)
      cases action with
      | sample n samples => exact older compiled
      | compile n =>
          rw [compiledAt] at compiled
          split at compiled
          · cases compiled
            exact Nat.lt_succ_self _
          · exact older compiled
      | forget n =>
          rw [compiledAt] at compiled
          split at compiled
          · contradiction
          · exact older compiled
      | reset => exact older compiled

theorem compiledAt_lt_length (m : Method) (history : List Action) :
    compiledAt m history < some history.length := by
  cases compiled : compiledAt m history with
  | none => exact Option.none_lt_some
  | some i => exact compiledAt_lt compiled

/-- One action compiles one method. -/
theorem compiledAt_inj (first : compiledAt m history = some i)
    (second : compiledAt n history = some i) : m = n := by
  induction history with
  | nil => contradiction
  | cons action earlier inductionHypothesis =>
      have old (k : Method) : compiledAt k earlier ≠ some earlier.length :=
        fun compiled => Nat.lt_irrefl _ (compiledAt_lt compiled)
      cases action with
      | sample k samples => exact inductionHypothesis first second
      | compile k =>
          rw [compiledAt] at first second
          split at first <;> split at second
          · rename_i isFirst isSecond
            exact isFirst.symm.trans isSecond
          · exact absurd (second.trans first.symm) (old n)
          · exact absurd (first.trans second.symm) (old m)
          · exact inductionHypothesis first second
      | forget k =>
          rw [compiledAt] at first second
          split at first
          · contradiction
          · split at second
            · contradiction
            · exact inductionHypothesis first second
      | reset => exact inductionHypothesis first second

theorem compiledNumber_le (m : Method) (history : List Action) :
    compiledNumber m history ≤ history.countP Action.isCompile := by
  induction history with
  | nil => exact Nat.le_refl 0
  | cons action earlier inductionHypothesis =>
      cases action with
      | sample n samples => exact inductionHypothesis
      | compile n =>
          rw [compiledNumber, List.countP_cons_of_pos rfl]
          split
          · exact Nat.le_refl _
          · exact Nat.le_succ_of_le inductionHypothesis
      | forget n =>
          rw [compiledNumber]
          split
          · exact Nat.zero_le _
          · exact inductionHypothesis
      | reset => exact inductionHypothesis

theorem compiledNumber_pos_iff : 0 < compiledNumber m history ↔ none < compiledAt m history := by
  induction history with
  | nil => simp [compiledNumber, compiledAt]
  | cons action earlier inductionHypothesis =>
      cases action with
      | sample n samples => exact inductionHypothesis
      | compile n =>
          rw [compiledNumber, compiledAt]
          split
          · simp
          · exact inductionHypothesis
      | forget n =>
          rw [compiledNumber, compiledAt]
          split
          · simp
          · exact inductionHypothesis
      | reset => exact inductionHypothesis

/-- Compilations are numbered in their order. -/
theorem compiledNumber_lt_iff (m n : Method) (history : List Action) :
    compiledNumber m history < compiledNumber n history ↔
      compiledAt m history < compiledAt n history := by
  induction history with
  | nil => simp [compiledNumber, compiledAt]
  | cons action earlier inductionHypothesis =>
      cases action with
      | sample k samples => exact inductionHypothesis
      | compile k =>
          have number (j : Method) :
              compiledNumber j earlier < earlier.countP Action.isCompile + 1 :=
            Nat.lt_succ_of_le (compiledNumber_le j earlier)
          have place (j : Method) := compiledAt_lt_length j earlier
          simp only [compiledNumber, compiledAt]
          by_cases isFirst : k = m <;> by_cases isSecond : k = n
          · simp only [if_pos isFirst, if_pos isSecond, Nat.lt_irrefl, Option.some_lt_some]
          · simp only [if_pos isFirst, if_neg isSecond]
            exact iff_of_false (Nat.lt_asymm (number n)) (place_asymm (place n))
          · simp only [if_neg isFirst, if_pos isSecond]
            exact iff_of_true (number m) (place m)
          · simpa only [if_neg isFirst, if_neg isSecond] using inductionHypothesis
      | forget k =>
          simp only [compiledNumber, compiledAt]
          by_cases isSecond : k = n
          · simp only [if_pos isSecond, Nat.not_lt_zero, Option.not_lt_none]
          · by_cases isFirst : k = m
            · simp only [if_pos isFirst, if_neg isSecond]
              exact compiledNumber_pos_iff
            · simpa only [if_neg isFirst, if_neg isSecond] using inductionHypothesis
      | reset => exact inductionHypothesis

end CodeLayout.Hotness
