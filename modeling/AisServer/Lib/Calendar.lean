import Mathlib.Data.Rat.Defs
import Mathlib.Algebra.Order.Ring.Rat
import Mathlib.Algebra.BigOperators.Group.List.Basic
import Mathlib.Algebra.GroupWithZero.Nat

/-!
# Seconds and the Gregorian calendar

`Time` is a number of seconds, as `time.time()` and `time.monotonic()` return it; a rational keeps
every finite floating-point value.  Sums and differences are exact, where the doubles of the code are rounded (by
less than a microsecond at the times of this century).  `utcTimestamp` is `datetime(…, tzinfo=timezone.utc).timestamp()`
on the proleptic Gregorian calendar, by way of the ordinal of a day as the `datetime` module counts
it (day 1 is 0001-01-01).
-/

namespace AisServer.Lib

/-- A number of seconds, with exact arithmetic. -/
abbrev Time := ℚ

def isLeap (year : ℕ) : Bool := year % 4 = 0 ∧ (year % 100 ≠ 0 ∨ year % 400 = 0)

def daysInMonth (year month : ℕ) : ℕ :=
  match month with
  | 2 => if isLeap year then 29 else 28
  | 4 | 6 | 9 | 11 => 30
  | _ => 31

def daysBeforeYear (year : ℕ) : ℕ :=
  (year - 1) * 365 + (year - 1) / 4 - (year - 1) / 100 + (year - 1) / 400

def daysBeforeMonth (year month : ℕ) : ℕ :=
  ((List.range month).tail.map (daysInMonth year)).sum

/-- `date.toordinal` -/
def toOrdinal (year month day : ℕ) : ℕ := daysBeforeYear year + daysBeforeMonth year month + day

/-- The arguments that `datetime` takes; any other raise a `ValueError`. -/
def validDatetime (year month day hour minute second : ℕ) : Bool :=
  1 ≤ year && year ≤ 9999 && 1 ≤ month && month ≤ 12 && 1 ≤ day && day ≤ daysInMonth year month &&
    hour < 24 && minute < 60 && second < 60

/-- `datetime(year, …, tzinfo=timezone.utc).timestamp()`, `none` for a `ValueError`. -/
def utcTimestamp (year month day hour minute second : ℕ) : Option ℤ :=
  if validDatetime year month day hour minute second then
    some (((toOrdinal year month day : ℤ) - toOrdinal 1970 1 1) * 86400 +
      (hour * 3600 + minute * 60 + second : ℕ))
  else none

example : utcTimestamp 2000 2 29 12 0 1 = some 951825601 ∧ utcTimestamp 2001 2 29 12 0 1 = none ∧
    utcTimestamp 1970 1 1 0 0 0 = some 0 := by decide

end AisServer.Lib
