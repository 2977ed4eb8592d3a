import CodeLayout.Proofs.Time.Triggers

/-!
# The next moment of a trigger set

At a trigger moment the calendar shows one of the times, and no seconds.  A set that was
read from a text or made from times finds, after any moment, the least trigger moment: it
comes within a day, none is passed over on whatever day, and it does not come earlier for
a later start.
-/

namespace CodeLayout

namespace Moment

variable {m now : Moment} {t : TimeOfDay}

/-- The calendar shows the time at the moment, and no seconds. -/
structure Shows (m : Moment) (t : TimeOfDay) : Prop where
  hour : m.toCalendar.hour = t.hour
  minute : m.toCalendar.minute = t.minute
  second : m.toCalendar.second = 0
  nanosecond : m.toCalendar.nanosecond = 0

/-- The time is shown on each day at one moment. -/
theorem shows_iff : m.Shows t ↔ ∃ day, t.on day = m := by
  have hour : m.toCalendar.hour = m.sinceMidnight.toNat / 3600 := rfl
  have minute : m.toCalendar.minute = m.sinceMidnight.toNat / 60 % 60 := rfl
  have second : m.toCalendar.second = m.sinceMidnight.toNat % 60 := rfl
  have midnight : m.sinceMidnight = m.second % 86400 := rfl
  constructor
  · intro shown
    refine ⟨m.day, ?_⟩
    have minutes : t.minutes = 60 * t.hour + t.minute := rfl
    have seconds : (t.on m.day).second = m.second := by
      rw [TimeOfDay.second_on, day]
      simp only [dayLength, minuteLength]
      have isHour := hour.symm.trans shown.hour
      have isMinute := minute.symm.trans shown.minute
      have isSecond := second.symm.trans shown.second
      omega
    have nanoseconds : (t.on m.day).nanosecond = m.nanosecond := shown.nanosecond.symm
    rcases m with ⟨whole, fraction⟩
    exact congrArg₂ Moment.mk seconds nanoseconds
  · rintro ⟨day, rfl⟩
    have minutes : t.minutes = 60 * t.hour + t.minute := rfl
    have short := t.minutes_lt
    rw [TimeOfDay.second_on] at midnight
    refine ⟨?_, ?_, ?_, rfl⟩
    · omega
    · omega
    · omega

theorem on_succ (t : TimeOfDay) (day : Int) :
    t.on (day + 1) = (t.on day).later (24 * 60 * 60) := by
  have seconds : (t.on (day + 1)).second = (t.on day).second + (24 * 60 * 60 : Nat) := by
    rw [TimeOfDay.second_on, TimeOfDay.second_on]
    omega
  exact congrArg (fun second => Moment.mk second 0) seconds

theorem later_le_later (le : m ≤ now) (seconds : Nat) : m.later seconds ≤ now.later seconds := by
  rw [le_iff] at le ⊢
  simp only [later]
  omega

end Moment

namespace TriggerSet

variable {s : TriggerSet} {now later next after m : Moment}

/-- Sets that are made from times, and those that are read from a text. -/
inductive Built : TriggerSet → Prop
  | ofTimes (times : List TimeOfDay) : Built (ofTimes times)
  | read {text : String} {s : TriggerSet} (read : (parse text).1 = .ok s) : Built s

theorem Built.ascending (built : s.Built) : s.Ascending := by
  cases built with
  | ofTimes times => exact ascending_ofTimes times
  | @read text _ read =>
      have parsed : parse text = (.ok s, (parse text).2) := Prod.ext read rfl
      exact ascending_of_parse parsed

/-- At the moment the calendar shows some time of the set, and no seconds. -/
def IsTrigger (s : TriggerSet) (m : Moment) : Prop :=
  ∃ t ∈ s.times, m.Shows t

theorem isTrigger_iff : s.IsTrigger m ↔ m ∈ s.moments :=
  exists_congr fun _ => and_congr_right fun _ => Moment.shows_iff

/-- Of the trigger moments after `now`, `next` is the first one. -/
structure Follows (s : TriggerSet) (now next : Moment) : Prop where
  isLater : now < next
  withinDay : next ≤ now.later (24 * 60 * 60)
  isTrigger : s.IsTrigger next
  noneBetween : ∀ m, s.IsTrigger m → ¬ (now < m ∧ m < next)

/-- The least trigger moment comes within a day: the same time of the day before is one as
well, and would be less. -/
theorem follows_of_isLeast (least : IsLeast {m | m ∈ s.moments ∧ now < m} next) :
    s.Follows now next where
  isLater := least.1.2
  withinDay := by
    rcases least.1.1 with ⟨t, member, day, rfl⟩
    have dayBefore : t.on (day - 1) ≤ now := by
      by_contra isLater
      have noEarlier := least.2 ⟨⟨t, member, day - 1, rfl⟩, not_le.mp isLater⟩
      exact not_lt.mpr noEarlier (TimeOfDay.on_lt_on_of_day_lt (by omega) t t)
    have dayAfter : t.on day = (t.on (day - 1)).later (24 * 60 * 60) := by
      rw [← Moment.on_succ, Int.sub_add_cancel]
    rw [dayAfter]
    exact Moment.later_le_later dayBefore _
  isTrigger := isTrigger_iff.mpr least.1.1
  noneBetween m isTrigger := by
    rintro ⟨isLater, isEarlier⟩
    exact not_lt.mpr (least.2 ⟨isTrigger_iff.mp isTrigger, isLater⟩) isEarlier

/-- A later start does not lead to an earlier next moment. -/
theorem Follows.mono (first : s.Follows now next) (second : s.Follows later after)
    (le : now ≤ later) : next ≤ after := by
  by_contra isEarlier
  exact first.noneBetween after second.isTrigger
    ⟨le.trans_lt second.isLater, not_le.mp isEarlier⟩

/-- A set that is not empty finds the first trigger moment after any moment, and never an
earlier one after a later moment; the empty set finds none. -/
theorem nextAfter_of_built (s : TriggerSet) (built : s.Built) :
    (s.times = [] → ∀ now, s.nextAfter now = none) ∧
      (s.times ≠ [] →
        (∀ now, ∃ next, s.nextAfter now = some next ∧ s.Follows now next) ∧
          ∀ now later next after, now ≤ later → s.nextAfter now = some next →
            s.nextAfter later = some after → next ≤ after) := by
  have follows {now next : Moment} (isNext : s.nextAfter now = some next) : s.Follows now next :=
    follows_of_isLeast (isLeast_nextAfter built.ascending isNext)
  refine ⟨fun empty now => ?_, fun filled => ⟨fun now => ?_, ?_⟩⟩
  · simp [nextAfter, empty]
  · rcases exists_nextAfter filled now with ⟨next, isNext⟩
    exact ⟨next, isNext, follows isNext⟩
  · intro now later next after le isNext isAfter
    exact (follows isNext).mono (follows isAfter) le

/-- A fraction of a second after the last time of a leap year's February, the first time of
March is next. -/
theorem nextAfter_shuffled :
    (ofTimes shuffled).Built ∧ (ofTimes shuffled).times ≠ [] ∧
      (ofTimes shuffled).nextAfter (.ofCalendar ⟨2024, 2, 29, 13, 0, 0, 1⟩) =
        some (.ofCalendar ⟨2024, 3, 1, 0, 15, 0, 0⟩) ∧
      (ofTimes shuffled).Follows (.ofCalendar ⟨2024, 2, 29, 13, 0, 0, 1⟩)
        (.ofCalendar ⟨2024, 3, 1, 0, 15, 0, 0⟩) := by
  have built : (ofTimes shuffled).Built := .ofTimes _
  have filled : (ofTimes shuffled).times ≠ [] := by
    rw [ofTimes_shuffled]
    exact List.cons_ne_nil _ _
  have isNext : (ofTimes shuffled).nextAfter (.ofCalendar ⟨2024, 2, 29, 13, 0, 0, 1⟩) =
      some (.ofCalendar ⟨2024, 3, 1, 0, 15, 0, 0⟩) := by
    rw [ofTimes_shuffled]
    decide +kernel
  rcases ((nextAfter_of_built _ built).2 filled).1 (.ofCalendar ⟨2024, 2, 29, 13, 0, 0, 1⟩)
    with ⟨next, isFound, follows⟩
  cases Option.some.inj (isNext.symm.trans isFound)
  exact ⟨built, filled, isNext, follows⟩

end TriggerSet

end CodeLayout
