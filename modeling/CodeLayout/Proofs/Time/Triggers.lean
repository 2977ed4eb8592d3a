import CodeLayout.Proofs.Distinct
import CodeLayout.Time.TriggerSet
import Mathlib.Data.Int.Order.Basic
import Mathlib.Data.List.Permutation
import Mathlib.Order.Bounds.Basic

/-!
# Moments of a trigger set

Moments are linearly ordered.  A trigger set that is ascending finds the least
moment after a given one at which some time of it is reached; the sets that are
read from a text and those built from times are ascending.
-/

namespace CodeLayout

namespace Moment

variable {a b c : Moment}

theorem lt_iff :
    a < b ↔ a.second < b.second ∨ a.second = b.second ∧ a.nanosecond < b.nanosecond :=
  Iff.rfl

theorem le_iff :
    a ≤ b ↔ a.second < b.second ∨ a.second = b.second ∧ a.nanosecond ≤ b.nanosecond :=
  Iff.rfl

/-- Moments are ordered by their seconds and then by the fraction. -/
instance : LinearOrder Moment where
  le_refl a := by
    rw [le_iff]
    omega
  le_trans a b c := by
    simp only [le_iff]
    omega
  lt_iff_le_not_ge a b := by
    simp only [le_iff, lt_iff]
    omega
  le_antisymm := by
    rintro ⟨second, nanosecond⟩ ⟨otherSecond, otherNanosecond⟩ before behind
    simp only [le_iff] at before behind
    rw [Moment.mk.injEq]
    omega
  le_total a b := by
    simp only [le_iff]
    omega
  toDecidableLE := inferInstance
  toDecidableLT := inferInstance

theorem latest_eq_max (a b : Moment) : latest a b = max a b := by
  rw [latest]
  split
  · rename_i before
    exact (max_eq_right before.le).symm
  · rename_i behind
    exact (max_eq_left (not_lt.mp behind)).symm

end Moment

namespace TimeOfDay

variable {t u : TimeOfDay} {day : Int} {now : Moment}

theorem minutes_lt (t : TimeOfDay) : t.minutes < 1440 := by
  have hours := t.hour.isLt
  have minutes := t.minute.isLt
  rw [TimeOfDay.minutes]
  omega

theorem minutes_inj (same : t.minutes = u.minutes) : t = u := by
  rcases t with ⟨hour, minute⟩
  rcases u with ⟨otherHour, otherMinute⟩
  have first := minute.isLt
  have second := otherMinute.isLt
  simp only [minutes] at same
  rw [TimeOfDay.mk.injEq, Fin.ext_iff, Fin.ext_iff]
  omega

theorem second_on (t : TimeOfDay) (day : Int) :
    (t.on day).second = day * 86400 + t.minutes * 60 :=
  rfl

/-- The moment at which a time is reached shows this time. -/
@[simp]
theorem ofMoment_on (t : TimeOfDay) (day : Int) : ofMoment (t.on day) = t := by
  have short := t.minutes_lt
  have shown : (t.on day).minuteOfDay = t.minutes := by
    rw [Moment.minuteOfDay, Moment.sinceMidnight, second_on]
    simp only [Moment.dayLength, Moment.minuteLength]
    omega
  apply minutes_inj
  simp only [ofMoment, shown, minutes]
  omega

theorem on_le_on_iff : t.on day ≤ u.on day ↔ t.minutes ≤ u.minutes := by
  rw [Moment.le_iff, second_on, second_on]
  simp only [on]
  omega

theorem on_lt_on_of_day_lt {later : Int} (before : day < later) (t u : TimeOfDay) :
    t.on day < u.on later := by
  have short := t.minutes_lt
  rw [Moment.lt_iff, second_on, second_on]
  omega

/-- What is reached after a moment is not reached on a day before it. -/
theorem day_le_of_lt_on (later : now < t.on day) : now.day ≤ day := by
  have short := t.minutes_lt
  rw [Moment.lt_iff, second_on] at later
  simp only [Moment.day, Moment.dayLength, Moment.minuteLength]
  omega

theorem lt_on_tomorrow (now : Moment) (t : TimeOfDay) : now < t.on (now.day + 1) := by
  rw [Moment.lt_iff, second_on, Moment.day, Moment.dayLength, Moment.minuteLength]
  omega

end TimeOfDay

namespace TriggerSet

variable {s : TriggerSet} {now next : Moment} {times distinct : List TimeOfDay}

/-- The times stand in the order of the day, and none of them twice. -/
def Ascending (s : TriggerSet) : Prop :=
  s.times.Pairwise fun t u => t.minutes < u.minutes

instance (s : TriggerSet) : Decidable s.Ascending :=
  inferInstanceAs (Decidable (s.times.Pairwise fun t u => t.minutes < u.minutes))

/-- The moments at which some time of the set is reached, on whatever day. -/
def moments (s : TriggerSet) : Set Moment :=
  {m | ∃ t ∈ s.times, ∃ day, t.on day = m}

/-! ## The next moment -/

/-- Some time of the set is reached after any moment. -/
theorem exists_nextAfter (filled : s.times ≠ []) (now : Moment) :
    ∃ next, s.nextAfter now = some next := by
  rcases List.exists_cons_of_ne_nil filled with ⟨first, rest, listed⟩
  rw [nextAfter]
  split
  · exact ⟨_, rfl⟩
  · exact ⟨first.on (now.day + 1), by rw [listed]; rfl⟩

/-- A time is no later in the day than any but those before it. -/
theorem Ascending.minutes_le {before behind : List TimeOfDay} {t u : TimeOfDay}
    (ascending : s.Ascending) (split : s.times = before ++ t :: behind) (member : u ∈ s.times)
    (notBefore : u ∉ before) : t.minutes ≤ u.minutes := by
  rw [Ascending, split] at ascending
  rw [split] at member
  rcases List.mem_append.mp member with early | late
  · exact absurd early notBefore
  · rcases List.mem_cons.mp late with rfl | last
    · exact Nat.le_refl _
    · exact (List.rel_of_pairwise_cons (List.pairwise_append.mp ascending).2.1 last).le

/-- A time that is reached later today is the next one, if those before it are over. -/
theorem isLeast_today (ascending : s.Ascending) {t : TimeOfDay}
    (today : s.times.find? (fun t => now < t.on now.day) = some t) :
    IsLeast {m | m ∈ s.moments ∧ now < m} (t.on now.day) := by
  rcases List.find?_eq_some_iff_append.mp today with ⟨later, before, behind, split, missed⟩
  constructor
  · exact ⟨⟨t, split ▸ by simp, now.day, rfl⟩, by simpa using later⟩
  · rintro _ ⟨⟨u, member, day, rfl⟩, after⟩
    rcases (TimeOfDay.day_le_of_lt_on after).eq_or_lt with rfl | tomorrow
    · rw [TimeOfDay.on_le_on_iff]
      apply ascending.minutes_le split member
      intro early
      have reached := missed u early
      simp only [after, decide_true, Bool.not_true, Bool.false_eq_true] at reached
    · exact (TimeOfDay.on_lt_on_of_day_lt tomorrow t u).le

/-- If no time is reached later today, the first one of the next day is the next. -/
theorem isLeast_tomorrow (ascending : s.Ascending) {first : TimeOfDay} {rest : List TimeOfDay}
    (nothingToday : s.times.find? (fun t => now < t.on now.day) = none)
    (listed : s.times = first :: rest) :
    IsLeast {m | m ∈ s.moments ∧ now < m} (first.on (now.day + 1)) := by
  constructor
  · exact ⟨⟨first, listed ▸ List.mem_cons_self, now.day + 1, rfl⟩,
      TimeOfDay.lt_on_tomorrow now first⟩
  · rintro _ ⟨⟨u, member, day, rfl⟩, after⟩
    have notToday : day ≠ now.day := by
      rintro rfl
      have missed := List.find?_eq_none.mp nothingToday u member
      simp only [after, decide_true, not_true_eq_false] at missed
    have tomorrow : now.day + 1 ≤ day := by
      have notBefore := TimeOfDay.day_le_of_lt_on after
      omega
    rcases tomorrow.eq_or_lt with rfl | later
    · rw [TimeOfDay.on_le_on_iff]
      have split : s.times = [] ++ first :: rest := listed
      exact ascending.minutes_le split member List.not_mem_nil
    · exact (TimeOfDay.on_lt_on_of_day_lt later first u).le

/-- The next moment is the least one after the given moment at which a time of the set
is reached. -/
theorem isLeast_nextAfter (ascending : s.Ascending) (isNext : s.nextAfter now = some next) :
    IsLeast {m | m ∈ s.moments ∧ now < m} next := by
  rw [nextAfter] at isNext
  split at isNext
  · rename_i t today
    cases isNext
    exact isLeast_today ascending today
  · rename_i nothingToday
    rcases Option.map_eq_some_iff.mp isNext with ⟨first, isFirst, rfl⟩
    rcases List.head?_eq_some_iff.mp isFirst with ⟨rest, listed⟩
    exact isLeast_tomorrow ascending nothingToday listed

/-! ## Sets are ascending -/

theorem sorted_mergeSort (times : List TimeOfDay) :
    (times.mergeSort TimeOfDay.le).Pairwise fun t u => t.minutes ≤ u.minutes := by
  refine (List.pairwise_mergeSort ?_ ?_ times).imp fun le => of_decide_eq_true le
  · intro t u v
    simp only [decide_eq_true_eq]
    exact Nat.le_trans
  · intro t u
    simp only [Bool.or_eq_true, decide_eq_true_eq]
    exact Nat.le_total t.minutes u.minutes

theorem ascending_mergeSort (distinct : times.Nodup) :
    (times.mergeSort TimeOfDay.le).Pairwise fun t u => t.minutes < u.minutes := by
  have once : (times.mergeSort TimeOfDay.le).Pairwise fun t u => t ≠ u :=
    (List.mergeSort_perm times _).nodup_iff.mpr distinct
  exact ((sorted_mergeSort times).and once).imp fun ⟨le, ne⟩ =>
    Nat.lt_of_le_of_ne le fun same => ne (TimeOfDay.minutes_inj same)

theorem ascending_eraseReps (times : List TimeOfDay) :
    (times.mergeSort TimeOfDay.le).eraseReps.Pairwise fun t u => t.minutes < u.minutes :=
  Distinct.ascending_eraseReps (fun _ _ => TimeOfDay.minutes_inj) (sorted_mergeSort times)

theorem ascending_earliest (distinct : times.Nodup) : (earliest times).Ascending :=
  (ascending_mergeSort distinct).take

theorem ascending_ofTimes (times : List TimeOfDay) : (ofTimes times).Ascending :=
  (ascending_eraseReps times).take

/-- Four times of which two are the same, and none is in its place. -/
def shuffled : List TimeOfDay :=
  ["13:00", "07:30", "13:00", "00:15"].filterMap TimeOfDay.parse?

theorem ofTimes_shuffled : ofTimes shuffled = ⟨[⟨0, 15⟩, ⟨7, 30⟩, ⟨13, 0⟩]⟩ := by
  have told : shuffled = [⟨13, 0⟩, ⟨7, 30⟩, ⟨13, 0⟩, ⟨0, 15⟩] := by decide +kernel
  rw [told]
  cbv

/-- What is read has no repeats, if what was read before has none. -/
theorem nodup_readTokens {seen : List TimeOfDay} {tokens : List String} {events : List Event}
    (nodup : seen.Nodup) (read : readTokens seen tokens = (.ok distinct, events)) :
    distinct.Nodup := by
  induction tokens generalizing seen events with
  | nil =>
      cases read
      exact nodup
  | cons token rest inductionHypothesis =>
      rw [readTokens] at read
      split at read
      · cases read
      · rename_i time _
        by_cases old : seen.contains time
        · rw [if_pos old] at read
          rcases others : readTokens seen rest with ⟨result, later⟩
          rw [others] at read
          cases read
          exact inductionHypothesis nodup others
        · rw [if_neg old] at read
          refine inductionHypothesis ?_ read
          rw [← List.concat_eq_append]
          exact nodup.concat (by simpa using old)

theorem ascending_of_parse {text : String} {events : List Event}
    (parsed : parse text = (.ok s, events)) : s.Ascending := by
  unfold parse at parsed
  split at parsed
  · cases parsed
  · split at parsed
    · cases parsed
    · rename_i distinct _ read
      cases parsed
      exact ascending_earliest (nodup_readTokens List.nodup_nil read)

/-! ## Texts that are refused -/

/-- What is wrong with the leftmost token that is no time. -/
def tokenFault? (tokens : List String) : Option ConfigError :=
  (tokens.find? fun token => (TimeOfDay.parse? token).isNone).map .invalidTime

theorem readTokens_eq_error_iff (seen : List TimeOfDay) {tokens : List String}
    {cause : ConfigError} :
    (readTokens seen tokens).1 = .error cause ↔ tokenFault? tokens = some cause := by
  induction tokens generalizing seen with
  | nil => simp [readTokens, tokenFault?]
  | cons token rest inductionHypothesis =>
      rw [readTokens, TimeOfDay.parse, tokenFault?, List.find?_cons]
      cases TimeOfDay.parse? token with
      | none => simp
      | some time =>
          by_cases old : seen.contains time
          · simp only [old, if_true]
            exact inductionHypothesis _
          · simp only [old]
            exact inductionHypothesis _

/-- A text of admissible length is refused for its leftmost token that is no time. -/
theorem parse_eq_error_iff {text : String} {cause : ConfigError}
    (admissible : checkLength text = .ok ()) :
    (parse text).1 = .error cause ↔ tokenFault? (tokens text) = some cause := by
  rw [← readTokens_eq_error_iff [], parse, admissible]
  rcases readTokens [] (tokens text) with ⟨result, events⟩
  cases result with
  | error fault => simp
  | ok distinct => simp

theorem tokenFault?_of_parse {text : String} (admissible : checkLength text = .ok ())
    {set : TriggerSet} (parsed : (parse text).1 = .ok set) : tokenFault? (tokens text) = none := by
  rw [Option.eq_none_iff_forall_ne_some]
  intro cause faulty
  have refused := (parse_eq_error_iff admissible).mpr faulty
  rw [parsed] at refused
  cases refused

end TriggerSet

end CodeLayout
