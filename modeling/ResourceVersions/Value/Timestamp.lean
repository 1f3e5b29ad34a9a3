import ResourceVersions.Text.Digit
import ResourceVersions.Text.Quoted

/-!
# Timestamps

A date and a time of day with microseconds, and possibly the distance from UTC. The calendar
is the Gregorian one throughout; days are counted from the first day of year 1.
-/
namespace ResourceVersions

structure Timestamp where
  year : Nat
  month : Nat
  day : Nat
  hour : Nat
  minute : Nat
  second : Nat
  microsecond : Nat
  /-- microseconds ahead of UTC -/
  offset? : Option Int
deriving DecidableEq, Repr

namespace Calendar

def isLeap (year : Nat) : Bool := year % 4 == 0 && (year % 100 != 0 || year % 400 == 0)

def daysIn (year month : Nat) : Nat :=
  if month = 2 then (if isLeap year then 29 else 28)
  else if [4, 6, 9, 11].contains month then 30 else 31

/-- The days before the first of January. -/
def daysBeforeYear (year : Nat) : Nat :=
  let y := year - 1
  365 * y + y / 4 - y / 100 + y / 400

/-- The day of the week of the first of January, Monday being zero. -/
def firstWeekday (year : Nat) : Nat := daysBeforeYear year % 7

/-- The day in a year, counted from zero, as month and day. -/
def monthDay (year dayOfYear : Nat) : Nat × Nat := go 12 1 dayOfYear
where
  go : Nat → Nat → Nat → Nat × Nat
    | 0, month, rest => (month, rest + 1)
    | left + 1, month, rest =>
      if rest < daysIn year month then (month, rest + 1)
      else go left (month + 1) (rest - daysIn year month)

/-- The Monday of the week that holds the fourth of January, relative to the first of January. -/
def weekOneStart (year : Nat) : Int :=
  let weekday : Int := firstWeekday year
  if weekday > 3 then 7 - weekday else -weekday

/-- Whether a year has a week of that number. -/
def hasWeek (year week : Nat) : Bool :=
  let long := firstWeekday year == 3 || (firstWeekday year == 2 && isLeap year)
  1 ≤ week && (week ≤ 52 || (week == 53 && long))

def yearLength (year : Nat) : Nat := if isLeap year then 366 else 365

/-- The date of a day in a numbered week. It may be in the year before or after. -/
def weekDate (year week day : Nat) : Nat × Nat × Nat :=
  let dayOfYear : Int := weekOneStart year + ((week - 1) * 7 + (day - 1) : Nat)
  if dayOfYear < 0 then
    (year - 1, monthDay (year - 1) (dayOfYear + yearLength (year - 1)).toNat)
  else if dayOfYear < yearLength year then (year, monthDay year dayOfYear.toNat)
  else (year + 1, monthDay (year + 1) (dayOfYear - yearLength year).toNat)

end Calendar

namespace Timestamp

open Text

def dayMicroseconds : Int := 24 * 3600 * 1000000

/-- Whether all parts are in range. -/
def isValid (t : Timestamp) : Bool :=
  1 ≤ t.year && t.year ≤ 9999 && 1 ≤ t.month && t.month ≤ 12 &&
  1 ≤ t.day && t.day ≤ Calendar.daysIn t.year t.month &&
  t.hour < 24 && t.minute < 60 && t.second < 60 && t.microsecond < 1000000 &&
  t.offset?.all fun o => decide (-dayMicroseconds < o) && decide (o < dayMicroseconds)

/-- The microseconds behind the decimal point, if there are any. -/
def fractionText (microseconds : Nat) : String :=
  if microseconds = 0 then "" else "." ++ padded 6 microseconds

def offsetText (offset : Int) : String :=
  let sign := if offset < 0 then "-" else "+"
  let micros := offset.natAbs
  let seconds := micros / 1000000
  let clock := padded 2 (seconds / 3600) ++ ":" ++ padded 2 (seconds / 60 % 60)
  let rest := ":" ++ padded 2 (seconds % 60) ++ fractionText (micros % 1000000)
  sign ++ clock ++ if micros % 60000000 = 0 then "" else rest

/-- The timestamp in ISO 8601. -/
def text (t : Timestamp) : String :=
  s!"{padded 4 t.year}-{padded 2 t.month}-{padded 2 t.day}T" ++
  s!"{padded 2 t.hour}:{padded 2 t.minute}:{padded 2 t.second}" ++
  fractionText t.microsecond ++ (t.offset?.map offsetText).getD ""

/-- A time span in days, seconds and microseconds, the last two never negative. -/
def shownSpan (micros : Int) : String :=
  let rest := micros % dayMicroseconds
  let parts := [("days", micros / dayMicroseconds), ("seconds", rest / 1000000),
    ("microseconds", rest % 1000000)]
  let shown := (parts.filter fun p => p.2 != 0).map fun p => s!"{p.1}={p.2}"
  "datetime.timedelta(" ++ (if shown.isEmpty then "0" else ", ".intercalate shown) ++ ")"

def shownZone (offset : Int) : String :=
  if offset = 0 then "datetime.timezone.utc" else s!"datetime.timezone({shownSpan offset})"

/-- The timestamp as messages show it. -/
def shown (t : Timestamp) : String :=
  let seconds :=
    if t.microsecond ≠ 0 then [t.second, t.microsecond]
    else if t.second ≠ 0 then [t.second] else []
  let numbers := [t.year, t.month, t.day, t.hour, t.minute] ++ seconds
  let zone := t.offset?.toList.map fun o => "tzinfo=" ++ shownZone o
  "datetime.datetime(" ++ ", ".intercalate (numbers.map toString ++ zone) ++ ")"

end Timestamp

end ResourceVersions
