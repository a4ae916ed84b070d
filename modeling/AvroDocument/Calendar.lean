import AvroDocument.Power

/-!
# AvroDocument.Calendar

Dates, times of day and timestamps of the years 1 to 9999 in the proleptic Gregorian calendar.

A date is a day number and a timestamp a number of microseconds, both counted from the start of
year 1 on the wall clock, so that moving between offsets is integer arithmetic. Years, months and
days are a view of the day number (`Civil`).

* `Timestamp.instant?`: the microseconds in UTC of a timestamp that has an offset.
* `Timestamp.ofInstant?`: the timestamp that shows an instant at an offset, if the calendar holds
  it.
* `Date.text`, `TimeOfDay.text`, `Timestamp.text`: ISO 8601.
-/

namespace AvroDocument
namespace Calendar

def secondMicros : Nat := 1000000

def dayMicros : Nat := 86400 * secondMicros

/-- The number of days in the years 1 to 9999. -/
def daySpan : Nat := 3652059

/-- The number of microseconds in the years 1 to 9999. -/
def microSpan : Nat := daySpan * dayMicros

/-- The day number of 1 January 1970. -/
def epochDay : Nat := 719162

/-- The microseconds from the start of year 1 to the start of 1970. -/
def epochMicros : Nat := epochDay * dayMicros

def isLeap (year : Nat) : Bool := year % 4 == 0 && (year % 100 != 0 || year % 400 == 0)

def daysInMonth (year month : Nat) : Nat :=
  if month = 2 then (if isLeap year then 29 else 28)
  else if month = 4 || month = 6 || month = 9 || month = 11 then 30
  else 31

/-- The number of days before the first of January of a year. -/
def daysBeforeYear (year : Nat) : Nat :=
  (year - 1) * 365 + (year - 1) / 4 - (year - 1) / 100 + (year - 1) / 400

/-- The number of days of a year before the first of a month. -/
def daysBeforeMonth (year month : Nat) : Nat :=
  ((List.range (month - 1)).map fun m => daysInMonth year (m + 1)).foldr (· + ·) 0

/-- The day of the week of a day number; Monday is zero. -/
def weekday (day : Nat) : Nat := day % 7

/-- A number with at least the given count of digits. -/
def padded (width n : Nat) : String :=
  let ds := Nat.toDigits 10 n
  String.ofList (List.replicate (width - ds.length) '0' ++ ds)

end Calendar

open Calendar

/-- Year, month and day of a date. -/
structure Civil where
  year : Nat
  month : Nat
  day : Nat
deriving DecidableEq

namespace Civil

def isValid (c : Civil) : Bool :=
  1 ≤ c.year && c.year ≤ 9999 && 1 ≤ c.month && c.month ≤ 12 && 1 ≤ c.day &&
    c.day ≤ daysInMonth c.year c.month

def toDay (c : Civil) : Nat := daysBeforeYear c.year + daysBeforeMonth c.year c.month + c.day - 1

/-- The month and day of a day of the year, both counted as the calendar does. -/
def monthDay (year : Nat) : Nat → Nat → Nat → Nat × Nat
  | 0, month, rest => (month, rest + 1)
  | fuel + 1, month, rest =>
    let length := daysInMonth year month
    if rest < length then (month, rest + 1) else monthDay year fuel (month + 1) (rest - length)

/-- The date of a day number, by whole cycles of 400, 100, 4 years and one year. -/
def ofDay (n : Nat) : Civil :=
  let r400 := n % 146097
  let n100 := r400 / 36524
  let r100 := r400 % 36524
  let n4 := r100 / 1461
  let r4 := r100 % 1461
  let n1 := r4 / 365
  let year := n / 146097 * 400 + n100 * 100 + n4 * 4 + n1 + 1
  if n1 = 4 || n100 = 4 then ⟨year - 1, 12, 31⟩
  else
    let (month, day) := monthDay year 11 1 (r4 % 365)
    ⟨year, month, day⟩

end Civil

/-- A distance from UTC of less than a day, in microseconds. -/
structure Offset where
  micros : Int
  bounded : micros.natAbs < dayMicros
deriving DecidableEq

namespace Offset

def utc : Offset := ⟨0, by decide⟩

def ofMicros? (micros : Int) : Option Offset :=
  if h : micros.natAbs < dayMicros then some ⟨micros, h⟩ else none

/-- Sign, hours and minutes; seconds and their fraction only when there are any. -/
def text (o : Offset) : String :=
  let n := o.micros.natAbs
  let seconds := n / secondMicros
  let rest :=
    if n % secondMicros ≠ 0 then
      ":" ++ padded 2 (seconds % 60) ++ "." ++ padded 6 (n % secondMicros)
    else if seconds % 60 ≠ 0 then ":" ++ padded 2 (seconds % 60)
    else ""
  (if o.micros < 0 then "-" else "+") ++ padded 2 (seconds / 3600) ++ ":" ++
    padded 2 (seconds / 60 % 60) ++ rest

end Offset

/-- A date, as the number of days since 1 January of year 1. -/
structure Date where
  day : Nat
  bounded : day < daySpan
deriving DecidableEq

namespace Date

def ofDay? (n : Int) : Option Date :=
  if h : 0 ≤ n ∧ n.toNat < daySpan then some ⟨n.toNat, h.2⟩ else none

def ofCivil? (c : Civil) : Option Date := if c.isValid then ofDay? c.toDay else none

def civil (d : Date) : Civil := Civil.ofDay d.day

def text (d : Date) : String :=
  let c := d.civil
  padded 4 c.year ++ "-" ++ padded 2 c.month ++ "-" ++ padded 2 c.day

end Date

/-- Hours, minutes, seconds and microseconds of a moment of the day. -/
structure Clock where
  hour : Nat
  minute : Nat
  second : Nat
  micros : Nat
deriving DecidableEq

namespace Clock

def isValid (c : Clock) : Bool :=
  c.hour < 24 && c.minute < 60 && c.second < 60 && c.micros < secondMicros

def toMicros (c : Clock) : Nat :=
  ((c.hour * 60 + c.minute) * 60 + c.second) * secondMicros + c.micros

def ofMicros (n : Nat) : Clock :=
  let seconds := n / secondMicros
  ⟨seconds / 3600 % 24, seconds / 60 % 60, seconds % 60, n % secondMicros⟩

def text (c : Clock) : String :=
  padded 2 c.hour ++ ":" ++ padded 2 c.minute ++ ":" ++ padded 2 c.second ++
    (if c.micros = 0 then "" else "." ++ padded 6 c.micros)

end Clock

def offsetText : Option Offset → String
  | none => ""
  | some o => o.text

/-- A time of day in microseconds since midnight, perhaps with an offset. -/
structure TimeOfDay where
  micros : Nat
  bounded : micros < dayMicros
  offset : Option Offset
deriving DecidableEq

namespace TimeOfDay

def ofMicros? (n : Int) (offset : Option Offset) : Option TimeOfDay :=
  if h : 0 ≤ n ∧ n.toNat < dayMicros then some ⟨n.toNat, h.2, offset⟩ else none

def ofClock? (c : Clock) (offset : Option Offset) : Option TimeOfDay :=
  if c.isValid then ofMicros? c.toMicros offset else none

def clock (t : TimeOfDay) : Clock := Clock.ofMicros t.micros

def text (t : TimeOfDay) : String := t.clock.text ++ offsetText t.offset

end TimeOfDay

/-- A timestamp: microseconds on the wall clock since the start of year 1. With an offset it
denotes an instant, without one a local time. Where a zone shows a local time twice, it is the first
showing that is meant; a mark for the second is not part of a timestamp. -/
structure Timestamp where
  wall : Nat
  bounded : wall < microSpan
  offset : Option Offset
deriving DecidableEq

namespace Timestamp

def ofWall? (n : Int) (offset : Option Offset) : Option Timestamp :=
  if h : 0 ≤ n ∧ n.toNat < microSpan then some ⟨n.toNat, h.2, offset⟩ else none

def ofParts? (d : Date) (c : Clock) (offset : Option Offset) : Option Timestamp :=
  if c.isValid then ofWall? (d.day * dayMicros + c.toMicros : Nat) offset else none

/-- Whether the timestamp denotes an instant rather than a local time. -/
def isAware (t : Timestamp) : Bool := t.offset.isSome

def withOffset (t : Timestamp) (offset : Option Offset) : Timestamp := { t with offset := offset }

/-- The microseconds in UTC since the start of year 1. -/
def instantAt (t : Timestamp) (o : Offset) : Int := (t.wall : Int) - o.micros

def instant? (t : Timestamp) : Option Int := t.offset.map t.instantAt

/-- The timestamp that shows an instant at an offset. -/
def ofInstant? (instant : Int) (o : Offset) : Option Timestamp :=
  ofWall? (instant + o.micros) (some o)

/-- The date that the wall clock shows. -/
def toDate (t : Timestamp) : Date :=
  ⟨t.wall / dayMicros, Nat.div_lt_of_lt_mul (Nat.mul_comm daySpan dayMicros ▸ t.bounded)⟩

/-- The time of day that the wall clock shows, without an offset. -/
def toTime (t : Timestamp) : TimeOfDay :=
  ⟨t.wall % dayMicros, Nat.mod_lt _ (by decide), none⟩

def clock (t : Timestamp) : Clock := Clock.ofMicros (t.wall % dayMicros)

def text (t : Timestamp) : String :=
  t.toDate.text ++ "T" ++ t.clock.text ++ offsetText t.offset

end Timestamp
end AvroDocument
