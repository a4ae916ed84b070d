import AvroDocument.Calendar
import AvroDocument.Text.Digit
import AvroDocument.Text.Utf8

/-!
# AvroDocument.Calendar.Iso

Reading ISO 8601 dates, times and timestamps.

A date is `YYYY-MM-DD`, `YYYYMMDD`, or a week date with or without its day. A time is hours,
minutes and seconds with or without colons, cut off anywhere after the hours, with a fraction of
which six digits count, and an offset. A timestamp is a date, any one character, and a time. Texts
are read byte by byte, since lengths count bytes.

* `Date.ofIso?`, `TimeOfDay.ofIso?`, `Timestamp.ofIso?`.
-/

namespace AvroDocument
namespace Calendar

/-- The bytes of a text, each as the character of its number. -/
def byteChars (s : String) : List Char := (Text.utf8 s).map fun b => Char.ofNat b.toNat

/-- A number of exactly the given count of ASCII digits, and the rest. -/
def takeNumber? (count : Nat) (cs : List Char) : Option (Nat × List Char) :=
  let ds := cs.take count
  if ds.length = count && ds.all Char.isDigit then some (Text.digitsValue ds, cs.drop count)
  else none

def skipChar? (c : Char) : List Char → Option (List Char)
  | d :: rest => if d = c then some rest else none
  | [] => none

/-- The day number of the Monday that starts week 1 of a year, which holds its first Thursday. -/
def weekOneMonday (year : Nat) : Int :=
  let first := daysBeforeYear year
  let w := weekday first
  if w ≤ 3 then (first : Int) - w else (first : Int) - w + 7

def hasWeek (year week : Nat) : Bool :=
  (1 ≤ week && week ≤ 52) ||
    (week == 53 &&
      (weekday (daysBeforeYear year) == 3 ||
        (weekday (daysBeforeYear year) == 2 && isLeap year)))

/-- The date of a day of a week. -/
def ofWeekDate? (year week day : Nat) : Option Date :=
  if 1 ≤ year && year ≤ 9999 && hasWeek year week && 1 ≤ day && day ≤ 7 then
    Date.ofDay? (weekOneMonday year + (week - 1) * 7 + day - 1)
  else none

/-- The rest of a week date; the day is left out when nothing follows the week. -/
def readWeekDate? (year : Nat) (separated : Bool) (cs : List Char) : Option Date :=
  match takeNumber? 2 cs with
  | none => none
  | some (week, []) => ofWeekDate? year week 1
  | some (week, rest) =>
    match (if separated then skipChar? '-' rest else some rest) with
    | none => none
    | some rest =>
      match takeNumber? 1 rest with
      | none => none
      | some (day, _) => ofWeekDate? year week day

/-- Reads the date that a run of characters starts with. -/
def readDate? (cs : List Char) : Option Date :=
  match takeNumber? 4 cs with
  | none => none
  | some (year, rest) =>
    let separated := rest.head? = some '-'
    match (if separated then rest.drop 1 else rest) with
    | 'W' :: rest => readWeekDate? year separated rest
    | rest =>
      match takeNumber? 2 rest with
      | none => none
      | some (month, rest) =>
        match (if separated then skipChar? '-' rest else some rest) with
        | none => none
        | some rest =>
          match takeNumber? 2 rest with
          | none => none
          | some (day, _) => Date.ofCivil? ⟨year, month, day⟩

/-- What a run of hours, minutes, seconds and a fraction spells, and whether characters are left
over behind it. -/
structure ClockRun where
  pairs : List Nat
  micros : Nat
  leftOver : Bool

def ClockRun.clock (r : ClockRun) : Clock :=
  ⟨r.pairs.getD 0 0, r.pairs.getD 1 0, r.pairs.getD 2 0, r.micros⟩

/-- The fraction of a second in the next `limit` characters: up to six digits count. -/
def readFraction? (pairs : List Nat) (cs : List Char) (limit : Nat) : Option ClockRun :=
  let count := min 6 limit
  match takeNumber? count cs with
  | none => none
  | some (n, rest) =>
    some ⟨pairs, n * 10 ^ (6 - count), !(rest.dropWhile Char.isDigit).isEmpty⟩

/-- Reads two digits at a time, at most three times, from the first `limit` characters. The first
character after the hours settles whether colons stand between them; a point or a comma starts the
fraction. -/
def readPairs? : Nat → Option Bool → List Nat → List Char → Nat → Option ClockRun
  | 0, _, pairs, cs, limit => readFraction? pairs cs limit
  | left + 1, colons, pairs, cs, limit =>
    match takeNumber? 2 cs with
    | none => none
    | some (n, rest) =>
      let pairs := pairs ++ [n]
      let next := rest.head?
      let colons := colons.getD (next = some ':')
      if limit ≤ 3 then some ⟨pairs, 0, next.isSome⟩
      else if colons && next = some ':' then
        readPairs? left (some colons) pairs (rest.drop 1) (limit - 3)
      else if next = some '.' || next = some ',' then
        readFraction? pairs (rest.drop 1) (limit - 3)
      else if !colons then readPairs? left (some colons) pairs rest (limit - 2)
      else none

def isOffsetStart (c : Char) : Bool := c = '+' || c = '-' || c = 'Z'

/-- The offset after its sign. One of less than a second counts as none. -/
def readOffset? (negative : Bool) (cs : List Char) : Option Offset :=
  match readPairs? 3 none [] cs cs.length with
  | none => none
  | some r =>
    if r.leftOver then none
    else
      let n : Int := r.clock.toMicros
      if n < 1000000 then some Offset.utc else Offset.ofMicros? (if negative then -n else n)

/-- Reads a clock time and its offset. -/
def readTime? (cs : List Char) : Option (Clock × Option Offset) :=
  let clockLength := (cs.takeWhile fun c => !isOffsetStart c).length
  match readPairs? 3 none [] cs clockLength with
  | none => none
  | some r =>
    match cs.drop clockLength with
    | [] => if r.leftOver then none else some (r.clock, none)
    | ['Z'] => some (r.clock, some Offset.utc)
    | 'Z' :: _ => none
    | sign :: rest => (readOffset? (sign = '-') rest).map fun o => (r.clock, some o)

/-- The number of characters that the date of a timestamp takes. -/
def dateLength? (cs : List Char) : Option Nat :=
  let digitAt (i : Nat) : Bool := ((cs[i]?).map Char.isDigit).getD false
  if cs.length < 7 then none
  else if cs.length = 7 then some 7
  else if cs[4]? = some '-' then
    if cs[5]? = some 'W' then
      if cs[8]? = some '-' then
        if cs.length = 9 then none else if digitAt 10 then some 8 else some 10
      else some 8
    else some 10
  else if cs[4]? = some 'W' then
    let stop := 7 + ((cs.drop 7).takeWhile Char.isDigit).length
    if stop < 9 then some stop else if stop % 2 = 0 then some 7 else some 8
  else some 8

/-- The number of bytes of the character that starts with the given one. -/
def sequenceLength (c : Char) : Nat :=
  if c.toNat < 128 then 1
  else if c.toNat / 16 = 14 then 3
  else if c.toNat / 16 = 15 then 4
  else 2

end Calendar

open Calendar

/-- Reads an ISO 8601 date. -/
def Date.ofIso? (s : String) : Option Date :=
  let cs := byteChars s
  if cs.length = 7 || cs.length = 8 || cs.length = 10 then readDate? cs else none

/-- Reads an ISO 8601 time of day; a `T` may stand in front. -/
def TimeOfDay.ofIso? (s : String) : Option TimeOfDay :=
  let cs := byteChars s
  match readTime? (if cs.head? = some 'T' then cs.drop 1 else cs) with
  | none => none
  | some (clock, offset) => TimeOfDay.ofClock? clock offset

/-- Reads an ISO 8601 timestamp: a date alone, or a date, a character and a time. -/
def Timestamp.ofIso? (s : String) : Option Timestamp :=
  let cs := byteChars s
  match dateLength? cs with
  | none => none
  | some length =>
    match readDate? (cs.take length) with
    | none => none
    | some date =>
      match cs.drop length with
      | [] => Timestamp.ofParts? date ⟨0, 0, 0, 0⟩ none
      | separator :: rest =>
        match readTime? ((separator :: rest).drop (sequenceLength separator)) with
        | none => none
        | some (clock, offset) => Timestamp.ofParts? date clock offset

end AvroDocument
