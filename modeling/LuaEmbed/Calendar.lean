/-! # Calendar

The proleptic Gregorian calendar: dates as years, months and days, and as a number of days since
the first day of 1970; times of day; and the span of years that the calendar is kept for. -/

namespace LuaEmbed

/-- A date. Months and days are counted from 1. -/
structure Date where
  year : Int
  month : Nat
  day : Nat
deriving DecidableEq, Repr

namespace Date

/-- Every fourth year has a leap day, of the years that end a century only every fourth. -/
def isLeap (year : Int) : Bool := year % 4 == 0 && (year % 100 != 0 || year % 400 == 0)

/-- The days from the first day of year 1 to the first day of a year. -/
def daysBeforeYear (year : Int) : Int :=
  let y := year - 1
  365 * y + y / 4 - y / 100 + y / 400

/-- The lengths of the months of a year. -/
def monthLengths (leap : Bool) : List Nat :=
  [31, if leap then 29 else 28, 31, 30, 31, 30, 31, 31, 30, 31, 30, 31]

/-- The days of a year before a month. -/
def daysBeforeMonth (leap : Bool) (month : Nat) : Nat :=
  ((monthLengths leap).take (month - 1)).foldl (· + ·) 0

/-- The days from the first day of year 1 to the first day of 1970. -/
def epoch : Int := 719162

/-- The day of the year, counted from 1. -/
def dayOfYear (d : Date) : Nat := daysBeforeMonth (isLeap d.year) d.month + d.day

/-- The number of days since the first day of 1970. -/
def dayNumber (d : Date) : Int := daysBeforeYear d.year + (d.dayOfYear : Int) - 1 - epoch

/-- The year of the `n`th day from the first day of year 1 on. The average length of a year gives
it up to one year. -/
def yearOf (n : Int) : Int :=
  let y := n * 400 / 146097 + 1
  if n < daysBeforeYear y then y - 1
  else if daysBeforeYear (y + 1) ≤ n then y + 1
  else y

/-- The month and its day that are reached `n` days after the first day of month `month`, where the
lengths of the months from there on are given. -/
def monthAndDay : List Nat → Nat → Nat → Nat × Nat
  | [], month, n => (month, n + 1)
  | length :: lengths, month, n =>
    if n < length then (month, n + 1) else monthAndDay lengths (month + 1) (n - length)

/-- The date of a number of days since the first day of 1970. -/
def ofDayNumber (n : Int) : Date :=
  let n := n + epoch
  let year := yearOf n
  let (month, day) := monthAndDay (monthLengths (isLeap year)) 1 (n - daysBeforeYear year).toNat
  ⟨year, month, day⟩

/-- The first year of the calendar. -/
def firstYear : Int := -262143

/-- The last year of the calendar. -/
def lastYear : Int := 262142

/-- The year is one of the calendar. -/
def isYear (year : Int) : Bool := firstYear ≤ year && year ≤ lastYear

/-- The day of the week, Sunday being 0. -/
def weekday (d : Date) : Nat := ((d.dayNumber + 4) % 7).toNat

/-- The day of the week, Monday being 0. -/
def weekdayFromMonday (d : Date) : Nat := (d.weekday + 6) % 7

/-! ## Weeks -/

/-- The number of days of the week `first` in the year up to a date, where `first` counts from
Sunday. -/
def weekFrom (d : Date) (first : Nat) : Nat :=
  (d.dayOfYear + 6 - (d.weekday + 7 - first) % 7) / 7

/-- The number of weeks of a year, where a week belongs to the year that has most of it. -/
def weeksOf (year : Int) : Nat :=
  let start := (Date.mk year 1 1).weekday
  if start == 4 || (start == 3 && isLeap year) then 53 else 52

/-- The year that a week belongs to, and its number there. Weeks start on Monday and belong to the
year that has most of their days. -/
def week (d : Date) : Int × Nat :=
  let n := (d.dayOfYear + 9 - d.weekdayFromMonday) / 7
  if n == 0 then (d.year - 1, weeksOf (d.year - 1))
  else if weeksOf d.year < n then (d.year + 1, 1)
  else (d.year, n)

end Date

/-- A date and a time of day. -/
structure Moment where
  date : Date
  hour : Nat
  minute : Nat
  second : Nat
deriving DecidableEq, Repr

namespace Moment

/-- The seconds of a day. -/
def daySeconds : Int := 86400

/-- The moment of a number of seconds since the start of 1970, if the calendar has it. -/
def ofSeconds? (n : Int) : Option Moment :=
  let date := Date.ofDayNumber (n / daySeconds)
  let s := (n % daySeconds).toNat
  if Date.isYear date.year then some ⟨date, s / 3600, s / 60 % 60, s % 60⟩ else none

/-- The number of seconds since the start of 1970. -/
def seconds (m : Moment) : Int :=
  m.date.dayNumber * daySeconds + (m.hour * 3600 + m.minute * 60 + m.second : Nat)

/-- The hour on a clock face. -/
def clockHour (m : Moment) : Nat := if m.hour % 12 == 0 then 12 else m.hour % 12

/-- The moment is in the second half of the day. -/
def isAfternoon (m : Moment) : Bool := 12 ≤ m.hour

end Moment

end LuaEmbed
