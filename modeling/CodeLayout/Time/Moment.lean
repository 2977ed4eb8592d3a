/-!
# Moments

A moment of local time is a count of seconds since the start of 1970 and a
fraction of a second.  A leap second is the last second of its minute drawn
out: its fraction goes on beyond a billion nanoseconds, and it is still over
before the next minute starts.  The Gregorian calendar, extended backwards
without bound, only matters where a moment is read or written.
-/

namespace CodeLayout

/-- A moment: whole seconds, and nanoseconds beyond them. -/
structure Moment where
  /-- Seconds since the start of 1970, leap seconds not counted. -/
  second : Int
  /-- A billion and more within a leap second. -/
  nanosecond : Nat
deriving DecidableEq, Repr, Inhabited

/-- A moment as the calendar writes it. -/
structure CalendarTime where
  year : Int
  month : Nat
  day : Nat
  hour : Nat
  minute : Nat
  second : Nat
  /-- A billion and more within a leap second. -/
  nanosecond : Nat
deriving DecidableEq, Repr, Inhabited

/-- Nanoseconds in a second. -/
def CalendarTime.secondLength : Nat := 1000000000

/-- The second that a clock with leap seconds shows: the one after the last of
its minute, in a leap second. -/
def CalendarTime.shownSecond (c : CalendarTime) : Nat :=
  c.second + c.nanosecond / secondLength

namespace Moment

/-- Moments are ordered by their seconds, and within one second by the
fraction. -/
instance : LT Moment :=
  ⟨fun a b => a.second < b.second ∨ a.second = b.second ∧ a.nanosecond < b.nanosecond⟩
instance : LE Moment :=
  ⟨fun a b => a.second < b.second ∨ a.second = b.second ∧ a.nanosecond ≤ b.nanosecond⟩
instance (a b : Moment) : Decidable (a < b) :=
  inferInstanceAs (Decidable (a.second < b.second ∨
    a.second = b.second ∧ a.nanosecond < b.nanosecond))
instance (a b : Moment) : Decidable (a ≤ b) :=
  inferInstanceAs (Decidable (a.second < b.second ∨
    a.second = b.second ∧ a.nanosecond ≤ b.nanosecond))

/-- The later one of two moments. -/
def latest (a b : Moment) : Moment :=
  if a < b then b else a

/-- So many seconds later. -/
def later (m : Moment) (seconds : Nat) : Moment :=
  { m with second := m.second + seconds }

/-- Seconds in a minute and in a day. -/
def minuteLength : Int := 60
def dayLength : Int := 1440 * minuteLength

/-- Number of the day, counted from the start of 1970. -/
def day (m : Moment) : Int :=
  m.second / dayLength

/-- Whole seconds since midnight. -/
def sinceMidnight (m : Moment) : Int :=
  m.second % dayLength

/-- Whole minutes since midnight. -/
def minuteOfDay (m : Moment) : Nat :=
  (m.sinceMidnight / minuteLength).toNat

/-- Number of a day of the calendar.  Years are taken to start in March, so
that the leap day is the last one of its year; 400 years repeat. -/
def dayNumber (year : Int) (month day : Nat) : Int :=
  let marchYear := if month ≤ 2 then year - 1 else year
  let era := marchYear / 400
  let yearOfEra := marchYear % 400
  let dayOfYear : Int := (153 * ((month + 9) % 12) + 2) / 5 + day - 1
  let dayOfEra := yearOfEra * 365 + yearOfEra / 4 - yearOfEra / 100 + dayOfYear
  era * 146097 + dayOfEra - 719468

/-- Year, month and day of a day number. -/
def dateOf (number : Int) : Int × Nat × Nat :=
  let shifted := number + 719468
  let era := shifted / 146097
  let dayOfEra := (shifted % 146097).toNat
  let yearOfEra := (dayOfEra - dayOfEra / 1460 + dayOfEra / 36524 - dayOfEra / 146096) / 365
  let dayOfYear := dayOfEra - (365 * yearOfEra + yearOfEra / 4 - yearOfEra / 100)
  let marchMonth := (5 * dayOfYear + 2) / 153
  let day := dayOfYear - (153 * marchMonth + 2) / 5 + 1
  let month := if marchMonth < 10 then marchMonth + 3 else marchMonth - 9
  let marchYear : Int := yearOfEra + era * 400
  (if month ≤ 2 then marchYear + 1 else marchYear, month, day)

/-- The moment that the calendar writes as `c`. -/
def ofCalendar (c : CalendarTime) : Moment where
  second := dayNumber c.year c.month c.day * dayLength +
    (c.hour * 60 + c.minute) * minuteLength + c.second
  nanosecond := c.nanosecond

/-- A moment in the calendar. -/
def toCalendar (m : Moment) : CalendarTime :=
  let (year, month, day) := dateOf m.day
  let seconds := m.sinceMidnight.toNat
  { year, month, day
    hour := seconds / 3600
    minute := seconds / 60 % 60
    second := seconds % 60
    nanosecond := m.nanosecond }

end Moment

end CodeLayout
