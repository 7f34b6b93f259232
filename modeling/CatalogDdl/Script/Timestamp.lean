/-!
# Points in time

A script may say when it was generated. A second may run over into a leap second, which is written
as the second after it.
-/
namespace CatalogDdl

/-- A date and a time of day. Of the nanoseconds, a thousand million or more are in a leap
second. -/
structure Timestamp where
  year : Int
  month : Nat
  day : Nat
  hour : Nat
  minute : Nat
  second : Nat
  nanosecond : Nat := 0
  deriving DecidableEq, Repr, Inhabited

namespace Timestamp

/-- A number with at least the given count of digits. -/
def padded (width n : Nat) : String := String.ofList ((Nat.toDigits 10 n).leftpad width '0')

/-- A year has four digits; outside the years 0 to 9999 it has a sign and may have more. -/
def yearText (year : Int) : String :=
  if year < 0 then "-" ++ padded 4 year.natAbs
  else if year > 9999 then "+" ++ padded 4 year.natAbs
  else padded 4 year.natAbs

def shownSecond (t : Timestamp) : Nat :=
  if 1000000000 ≤ t.nanosecond then t.second + 1 else t.second

/-- The date and the time of day, as in `2024-01-31 08:05:00`. -/
def text (t : Timestamp) : String :=
  yearText t.year ++ "-" ++ padded 2 t.month ++ "-" ++ padded 2 t.day ++ " "
    ++ padded 2 t.hour ++ ":" ++ padded 2 t.minute ++ ":" ++ padded 2 t.shownSecond

/-- The date that lies the given number of days after the first of January 1970. Years are counted
from March here, so that a leap day is the last day of its year. -/
def dateOfDay (day : Int) : Int × Nat × Nat :=
  let shifted := day + 719468
  let era := shifted.fdiv 146097
  let dayOfEra := (shifted.fmod 146097).toNat
  let yearOfEra := (dayOfEra - dayOfEra / 1460 + dayOfEra / 36524 - dayOfEra / 146096) / 365
  let dayOfYear := dayOfEra - (365 * yearOfEra + yearOfEra / 4 - yearOfEra / 100)
  let monthFromMarch := (5 * dayOfYear + 2) / 153
  let dayOfMonth := dayOfYear - (153 * monthFromMarch + 2) / 5 + 1
  let month := if monthFromMarch < 10 then monthFromMarch + 3 else monthFromMarch - 9
  (era * 400 + yearOfEra + (if month ≤ 2 then 1 else 0), month, dayOfMonth)

/-- The point in time, in universal time, that lies the given number of seconds after the first
moment of 1970. -/
def ofSeconds (seconds : Int) : Timestamp :=
  let (year, month, day) := dateOfDay (seconds.fdiv 86400)
  let ofDay := (seconds.fmod 86400).toNat
  { year, month, day, hour := ofDay / 3600, minute := ofDay / 60 % 60, second := ofDay % 60 }

example : (ofSeconds 951827696).text = "2000-02-29 12:34:56" := by cbv

example : (ofSeconds (-1)).text = "1969-12-31 23:59:59" := by cbv

end Timestamp
end CatalogDdl
