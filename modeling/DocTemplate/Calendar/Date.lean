/-!
# Dates and times of day

Dates of the Gregorian calendar, extended to all years before it. A date counts
its days in two ways: within its year (`Date.ordinal`) and from the first day of
the year 1, which is a Monday (`Date.dayNumber`). Weeks are derived from these,
those of ISO 8601 included: week 1 of a year is the one with its first Thursday.

The years of dates are bounded, as in a date packed into thirty-two bits.

A time of day counts nanoseconds within the second. A second of `10^9` or more
of them is a leap second, which only the last second of a minute can be.
-/

namespace DocTemplate

namespace Calendar

/-- Whether a year has 366 days. -/
def isLeapYear (year : Int) : Bool :=
  year % 4 = 0 && (year % 100 ≠ 0 || year % 400 = 0)

/-- The number of days of a month. -/
def monthLength (year : Int) (month : Nat) : Nat :=
  match month with
  | 2 => if isLeapYear year then 29 else 28
  | 4 | 6 | 9 | 11 => 30
  | _ => 31

/-- The number of days of a year. -/
def yearLength (year : Int) : Nat :=
  if isLeapYear year then 366 else 365

/-- The first year of dates. -/
def minYear : Int := -262143

/-- The last year of dates. -/
def maxYear : Int := 262142

end Calendar

/-- A date. -/
structure Date where
  /-- The year; zero is the year before the year 1. -/
  year : Int
  /-- The month, from 1. -/
  month : Nat
  /-- The day of the month, from 1. -/
  day : Nat
  year_mem : Calendar.minYear ≤ year ∧ year ≤ Calendar.maxYear
  month_mem : 1 ≤ month ∧ month ≤ 12
  day_mem : 1 ≤ day ∧ day ≤ Calendar.monthLength year month
  deriving DecidableEq, Repr

namespace Date

/-- The date of a year, month and day, if there is one. -/
def ofParts? (year : Int) (month day : Nat) : Option Date :=
  if h : (Calendar.minYear ≤ year ∧ year ≤ Calendar.maxYear) ∧ (1 ≤ month ∧ month ≤ 12) ∧
      (1 ≤ day ∧ day ≤ Calendar.monthLength year month) then
    some ⟨year, month, day, h.1, h.2.1, h.2.2⟩
  else
    none

variable (d : Date)

/-- The day within the year, from 1. -/
def ordinal : Nat :=
  (List.range (d.month - 1)).foldl (fun n i => n + Calendar.monthLength d.year (i + 1)) d.day

/-- The number of days from the first day of the year 1. -/
def dayNumber : Int :=
  let y := d.year - 1
  365 * y + y.fdiv 4 - y.fdiv 100 + y.fdiv 400 + d.ordinal - 1

/-- The day of the week, from Monday as 0. -/
def weekday : Nat :=
  (d.dayNumber % 7).toNat

/-- The number of Sundays (of Mondays) in the year up to the date. -/
def weeksFrom (start : Nat) : Nat :=
  (d.ordinal + 6 - (d.weekday + 7 - start) % 7) / 7

/-- The year and the week of ISO 8601. -/
def isoWeek : Int × Nat :=
  -- The Thursday of the same week decides.
  let thursday : Int := (d.ordinal : Int) + 3 - d.weekday
  if thursday < 1 then
    let length := Calendar.yearLength (d.year - 1)
    (d.year - 1, ((thursday + length + 6) / 7).toNat)
  else if Calendar.yearLength d.year < thursday then
    (d.year + 1, 1)
  else
    (d.year, ((thursday + 6) / 7).toNat)

end Date

/-- A time of day. -/
structure Time where
  /-- The hour, from 0. -/
  hour : Nat
  /-- The minute of the hour. -/
  minute : Nat
  /-- The second of the minute. -/
  second : Nat
  /-- The nanoseconds of the second. -/
  nanos : Nat
  hour_lt : hour < 24
  minute_lt : minute < 60
  second_lt : second < 60
  nanos_lt : nanos < 1000000000 ∨ (second = 59 ∧ nanos < 2000000000)
  deriving DecidableEq, Repr

namespace Time

/-- The time of its parts, if there is one. -/
def ofParts? (hour minute second nanos : Nat) : Option Time :=
  if h : hour < 24 ∧ minute < 60 ∧ second < 60 ∧
      (nanos < 1000000000 ∨ (second = 59 ∧ nanos < 2000000000)) then
    some ⟨hour, minute, second, nanos, h.1, h.2.1, h.2.2.1, h.2.2.2⟩
  else
    none

variable (t : Time)

/-- The second as it is shown: a leap second is the sixtieth. -/
def shownSecond : Nat :=
  t.second + t.nanos / 1000000000

/-- The nanoseconds as they are shown, those of the leap second being taken off. -/
def shownNanos : Nat :=
  t.nanos % 1000000000

/-- The number of seconds from midnight. -/
def secondOfDay : Nat :=
  t.hour * 3600 + t.minute * 60 + t.second

end Time

/-- A date with a time of day. -/
structure DateTime where
  /-- The date. -/
  date : Date
  /-- The time of day. -/
  time : Time
  deriving DecidableEq, Repr

namespace DateTime

/-- The number of seconds from the start of the year 1970. -/
def timestamp (dt : DateTime) : Int :=
  (dt.date.dayNumber - 719162) * 86400 + dt.time.secondOfDay

end DateTime

namespace Calendar

/-- The order of two lists of integers: the first difference decides. -/
def compareParts : List Int → List Int → Ordering
  | a :: as, b :: bs => (compare a b).then (compareParts as bs)
  | _, _ => .eq

end Calendar

/-- Earlier dates come first. -/
instance : Ord Date where
  compare a b := Calendar.compareParts [a.year, a.month, a.day] [b.year, b.month, b.day]

/-- Earlier times come first. -/
instance : Ord Time where
  compare a b := Calendar.compareParts [a.secondOfDay, a.nanos] [b.secondOfDay, b.nanos]

/-- The date decides, then the time of day. -/
instance : Ord DateTime where
  compare a b := (compare a.date b.date).then (compare a.time b.time)

end DocTemplate
