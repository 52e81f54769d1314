/-!
# DocQuery.Calendar — dates and moments of the proleptic Gregorian calendar

A moment is a date and a time of day to the microsecond, with or without an offset from UTC.  Two
moments that both carry an offset are the same if they name the same instant (`Moment.instant?`).
-/

namespace DocQuery

structure Date where
  year : Nat
  month : Nat
  day : Nat
deriving DecidableEq

/-- A date with a time of day; `offset` is in seconds east of UTC. -/
structure Moment where
  date : Date
  hour : Nat
  minute : Nat
  second : Nat
  microsecond : Nat
  offset : Option Int
deriving DecidableEq

/-- A number written with leading zeros, `width` digits or more. -/
def padded (width n : Nat) : String :=
  let ds := Nat.toDigits 10 n
  String.ofList (List.replicate (width - ds.length) '0' ++ ds)

namespace Date

/-- Days since the first of March of the year 0, counted in a year that begins in March. -/
def dayNumber (d : Date) : Int :=
  let y : Int := if d.month ≤ 2 then d.year - 1 else d.year
  let m : Int := (d.month + 9) % 12
  365 * y + y / 4 - y / 100 + y / 400 + (153 * m + 2) / 5 + (d.day - 1)

/-- Year, month and day with dashes. -/
def text (d : Date) : String :=
  padded 4 d.year ++ "-" ++ padded 2 d.month ++ "-" ++ padded 2 d.day

end Date

namespace Moment

/-- Microseconds from a fixed origin in UTC; a moment without an offset names no instant. -/
def instant? (m : Moment) : Option Int :=
  m.offset.map fun offset =>
    let seconds : Int := m.date.dayNumber * 86400 + m.hour * 3600 + m.minute * 60 + m.second
    (seconds - offset) * 1000000 + m.microsecond

/-- An offset as sign, hours and minutes; seconds only where there are some. -/
def offsetText (offset : Int) : String :=
  let n := offset.natAbs
  let seconds := if n % 60 = 0 then "" else ":" ++ padded 2 (n % 60)
  (if offset < 0 then "-" else "+") ++ padded 2 (n / 3600) ++ ":" ++ padded 2 (n / 60 % 60)
    ++ seconds

/-- Date, `separator` and time of day; microseconds and offset only where there are some. -/
def textWith (separator : String) (m : Moment) : String :=
  let micros := if m.microsecond = 0 then "" else "." ++ padded 6 m.microsecond
  m.date.text ++ separator ++ padded 2 m.hour ++ ":" ++ padded 2 m.minute ++ ":"
    ++ padded 2 m.second ++ micros ++ (m.offset.map offsetText).getD ""

/-- The ISO 8601 form. -/
def isoText : Moment → String := textWith "T"

/-- The form with a space between date and time. -/
def plainText : Moment → String := textWith " "

end Moment

end DocQuery
