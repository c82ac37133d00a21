import Mathlib

/-!
# Times

A naive UTC time is a whole number of microseconds since 1970-01-01, which is
the resolution of both databases and of Python's `datetime`. The calendar date
of a time is only needed by the severity policy's windows.
-/

namespace PlatformOps

/-- A naive UTC time, in microseconds since 1970-01-01. -/
abbrev Timestamp := ℤ

/-- A length of time, in microseconds. -/
abbrev Duration := ℤ

namespace Duration

def seconds (n : ℤ) : Duration := n * 1000000
def minutes (n : ℤ) : Duration := seconds (n * 60)
def hours (n : ℤ) : Duration := seconds (n * 3600)

end Duration

/-- A calendar day. -/
structure Date where
  year : ℤ
  month : ℕ
  day : ℕ
deriving DecidableEq, Repr

namespace Date

def isLeap (year : ℤ) : Bool :=
  (year % 4 = 0 && year % 100 ≠ 0) || year % 400 = 0

/-- `calendar.monthrange(year, month)[1]`. -/
def daysInMonth (year : ℤ) (month : ℕ) : ℕ :=
  if month = 2 then (if isLeap year then 29 else 28)
  else if month = 4 ∨ month = 6 ∨ month = 9 ∨ month = 11 then 30
  else 31

/-- The date `days` after 1970-01-01 in the proleptic Gregorian calendar, counted
in eras of 400 years that start on a first of March. -/
def ofDays (days : ℤ) : Date :=
  -- days since the first of March of the year 0; an era is 400 years
  let shifted := days + 719468
  let era := shifted / 146097
  let dayOfEra := shifted % 146097
  let yearOfEra := (dayOfEra - dayOfEra / 1460 + dayOfEra / 36524 - dayOfEra / 146096) / 365
  let dayOfYear := dayOfEra - (365 * yearOfEra + yearOfEra / 4 - yearOfEra / 100)
  -- months counted from March, so that the leap day comes last
  let marchMonth := (5 * dayOfYear + 2) / 153
  let day := dayOfYear - (153 * marchMonth + 2) / 5 + 1
  let month := if marchMonth < 10 then marchMonth + 3 else marchMonth - 9
  let year := yearOfEra + era * 400 + (if month ≤ 2 then 1 else 0)
  ⟨year, month.toNat, day.toNat⟩

/-- How many days after 1970-01-01 a date is: `ofDays` turned around. -/
def toDays (d : Date) : ℤ :=
  let marchYear := if d.month ≤ 2 then d.year - 1 else d.year
  let yearOfEra := marchYear % 400
  let marchMonth : ℤ := if d.month ≤ 2 then d.month + 9 else d.month - 3
  let dayOfYear := (153 * marchMonth + 2) / 5 + d.day - 1
  marchYear / 400 * 146097 + yearOfEra * 365 + yearOfEra / 4 - yearOfEra / 100 + dayOfYear - 719468

end Date

/-- `at.date()`. -/
def Timestamp.date (time : Timestamp) : Date :=
  Date.ofDays (time / Duration.hours 24)

example : Timestamp.date (Duration.hours (24 * 20514)) = ⟨2026, 3, 2⟩ := by decide

end PlatformOps
