import CodeLayout.Error
import CodeLayout.Time.Moment

/-!
# Times of day

A daily time with minute resolution, written as two digits, a colon and two
digits.
-/

namespace CodeLayout

/-- An hour and a minute. -/
structure TimeOfDay where
  hour : Fin 24
  minute : Fin 60
deriving DecidableEq, Repr, Inhabited

namespace TimeOfDay

/-- The time at an hour and a minute, if they are in range. -/
def ofNats? (hour minute : Nat) : Option TimeOfDay :=
  if inHours : hour < 24 then
    if inMinutes : minute < 60 then some ⟨⟨hour, inHours⟩, ⟨minute, inMinutes⟩⟩ else none
  else none

/-- Minutes since midnight. -/
def minutes (t : TimeOfDay) : Nat :=
  60 * t.hour + t.minute

/-- Order of the day. -/
def le (s t : TimeOfDay) : Bool :=
  decide (s.minutes ≤ t.minutes)

/-- The moment at which the time is reached on a day. -/
def on (t : TimeOfDay) (day : Int) : Moment :=
  ⟨day * Moment.dayLength + t.minutes * Moment.minuteLength, 0⟩

/-- The time that a moment shows. -/
def ofMoment (m : Moment) : TimeOfDay :=
  let minutes := m.minuteOfDay % (24 * 60)
  ⟨⟨minutes / 60, by omega⟩, ⟨minutes % 60, by omega⟩⟩

/-- Two digits, a colon, two digits. -/
def display (t : TimeOfDay) : String :=
  Digits.padded 2 t.hour ++ ":" ++ Digits.padded 2 t.minute

/-- Read exactly what `display` writes. -/
def parse? (token : String) : Option TimeOfDay :=
  match token.toList with
  | [h1, h2, ':', m1, m2] =>
    (Digits.parse? [h1, h2]).bind fun hour =>
      (Digits.parse? [m1, m2]).bind fun minute => ofNats? hour minute
  | _ => none

/-- Read a time; the token is reported as it stands when it is none. -/
def parse (token : String) : Except ConfigError TimeOfDay :=
  match parse? token with
  | some t => .ok t
  | none => .error (.invalidTime token)

end TimeOfDay

end CodeLayout
