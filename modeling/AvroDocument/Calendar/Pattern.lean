import AvroDocument.Calendar
import AvroDocument.Text.Blank
import AvroDocument.Text.Digit
import AvroDocument.Text.Lower

/-!
# AvroDocument.Calendar.Pattern

Reading timestamps by a pattern such as `%d.%m.%Y %H:%M`.

A pattern is a list of items: characters that stand for themselves, runs of blanks, and fields.
Each field lists the ways in which it can match the start of a text, in order of preference; the
first combination that lets the whole pattern match is taken, and it has to use up the text. Names
are English ones, and the names of zones those of a machine that runs in UTC.

* `Timestamp.ofPattern?`: the timestamp that a text spells.
* `repeatsField`: whether a pattern names a field twice; such a pattern cannot be used.
-/

namespace AvroDocument
namespace Calendar

/-- The fields of a pattern. -/
inductive Field where
  | year
  | shortYear
  | month
  | day
  | dayOfYear
  | monthName
  | shortMonthName
  | dayName
  | shortDayName
  | hour
  | halfDayHour
  | halfDay
  | minute
  | second
  | fraction
  | offset
  | zoneName
  | weekdayNumber
  | isoWeekdayNumber
  | sundayWeek
  | mondayWeek
  | isoWeek
  | isoYear
deriving DecidableEq

inductive Item where
  | char (c : Char)
  | blanks
  | field (f : Field)

def Field.ofLetter? : Char → Option Field
  | 'Y' => some .year
  | 'y' => some .shortYear
  | 'm' => some .month
  | 'd' => some .day
  | 'j' => some .dayOfYear
  | 'B' => some .monthName
  | 'b' => some .shortMonthName
  | 'A' => some .dayName
  | 'a' => some .shortDayName
  | 'H' => some .hour
  | 'I' => some .halfDayHour
  | 'p' => some .halfDay
  | 'M' => some .minute
  | 'S' => some .second
  | 'f' => some .fraction
  | 'z' => some .offset
  | 'Z' => some .zoneName
  | 'w' => some .weekdayNumber
  | 'u' => some .isoWeekdayNumber
  | 'U' => some .sundayWeek
  | 'W' => some .mondayWeek
  | 'V' => some .isoWeek
  | 'G' => some .isoYear
  | _ => none

/-- The items of the letters that stand for a whole pattern. -/
def shorthand? : Char → Option (List Item)
  | 'c' =>
    some [.field .shortDayName, .blanks, .field .shortMonthName, .blanks, .field .day, .blanks,
      .field .hour, .char ':', .field .minute, .char ':', .field .second, .blanks, .field .year]
  | 'x' => some [.field .month, .char '/', .field .day, .char '/', .field .shortYear]
  | 'X' => some [.field .hour, .char ':', .field .minute, .char ':', .field .second]
  | _ => none

/-- The items of a letter behind a percent sign. -/
def letterItems? (c : Char) : Option (List Item) :=
  match Field.ofLetter? c with
  | some f => some [.field f]
  | none => shorthand? c

/-- The items of a pattern; `none` when a percent sign has no field behind it. -/
def readItems? : List Char → Option (List Item)
  | [] => some []
  | ['%'] => none
  | '%' :: '%' :: rest => (readItems? rest).map (.char '%' :: ·)
  | '%' :: c :: rest =>
    match letterItems? c with
    | none => none
    | some items => (readItems? rest).map (items ++ ·)
  | c :: rest =>
    if Text.isBlank c then
      match readItems? rest with
      | some (.blanks :: items) => some (.blanks :: items)
      | other => other.map (.blanks :: ·)
    else (readItems? rest).map (.char c :: ·)

/-- The fields of a pattern in order. -/
def fieldsOf (items : List Item) : List Field :=
  items.filterMap fun
    | .field f => some f
    | _ => none

/-- Whether a pattern names a field twice. -/
def repeatsField (pattern : String) : Bool :=
  match readItems? pattern.toList with
  | none => false
  | some items => !decide (fieldsOf items).Nodup

/-- A class of characters. -/
abbrev CharClass := Char → Bool

def between (low high : Char) : CharClass := fun c => low ≤ c && c ≤ high

def only (c : Char) : CharClass := fun d => c = d

def ignoringCase (c : Char) : CharClass := fun d => Text.lowerChar c = Text.lowerChar d

def anyDigit : CharClass := Text.isDigit

def wordClasses (s : String) : List CharClass := s.toList.map ignoringCase

/-- The characters that a list of classes takes from the start of a text. -/
def takeClasses? : List CharClass → List Char → Option (List Char × List Char)
  | [], cs => some ([], cs)
  | _ :: _, [] => none
  | p :: ps, c :: cs =>
    if p c then (takeClasses? ps cs).map fun (taken, rest) => (c :: taken, rest) else none

def monthNames : List String :=
  ["january", "february", "march", "april", "may", "june", "july", "august", "september",
    "october", "november", "december"]

def dayNames : List String :=
  ["monday", "tuesday", "wednesday", "thursday", "friday", "saturday", "sunday"]

def shortNames (names : List String) : List String :=
  names.map fun s => String.ofList (s.toList.take 3)

def zoneNames : List String := ["utc", "gmt"]

/-- Offsets: hours and minutes, then perhaps seconds with a fraction, colons left out at will. -/
def offsetForms : List (List CharClass) :=
  let sign : CharClass := fun c => c = '+' || c = '-'
  let colons : List (List CharClass) := [[only ':'], []]
  let sixty : List CharClass := [between '0' '5', anyDigit]
  let fractions : List (List CharClass) :=
    [6, 5, 4, 3, 2, 1].map (fun n => only '.' :: List.replicate n anyDigit) ++ [[]]
  let seconds : List (List CharClass) :=
    colons.flatMap (fun colon => fractions.map fun part => colon ++ sixty ++ part) ++ [[]]
  colons.flatMap (fun colon =>
    seconds.map fun tail => [sign, anyDigit, anyDigit] ++ colon ++ sixty ++ tail) ++ [[only 'Z']]

/-- The forms of a field, the preferred one first. -/
def Field.forms : Field → List (List CharClass)
  | .year => [[anyDigit, anyDigit, anyDigit, anyDigit]]
  | .shortYear => [[anyDigit, anyDigit]]
  | .month => [[only '1', between '0' '2'], [only '0', between '1' '9'], [between '1' '9']]
  | .day =>
    [[only '3', between '0' '1'], [between '1' '2', anyDigit], [only '0', between '1' '9'],
      [between '1' '9'], [only ' ', between '1' '9']]
  | .dayOfYear =>
    [[only '3', only '6', between '0' '6'], [only '3', between '0' '5', anyDigit],
      [between '1' '2', anyDigit, anyDigit], [only '0', between '1' '9', anyDigit],
      [only '0', only '0', between '1' '9'], [between '1' '9', anyDigit],
      [only '0', between '1' '9'], [between '1' '9']]
  | .monthName => monthNames.map wordClasses
  | .shortMonthName => (shortNames monthNames).map wordClasses
  | .dayName => dayNames.map wordClasses
  | .shortDayName => (shortNames dayNames).map wordClasses
  | .hour => [[only '2', between '0' '3'], [between '0' '1', anyDigit], [anyDigit]]
  | .halfDayHour => [[only '1', between '0' '2'], [only '0', between '1' '9'], [between '1' '9']]
  | .halfDay => ["am", "pm"].map wordClasses
  | .minute => [[between '0' '5', anyDigit], [anyDigit]]
  | .second => [[only '6', between '0' '1'], [between '0' '5', anyDigit], [anyDigit]]
  | .fraction => [6, 5, 4, 3, 2, 1].map fun n => List.replicate n (between '0' '9')
  | .offset => offsetForms
  | .zoneName => zoneNames.map wordClasses
  | .weekdayNumber => [[between '0' '6']]
  | .isoWeekdayNumber => [[between '1' '7']]
  | .sundayWeek | .mondayWeek =>
    [[only '5', between '0' '3'], [between '0' '4', anyDigit], [anyDigit]]
  | .isoWeek =>
    [[only '5', between '0' '3'], [only '0', between '1' '9'], [between '1' '4', anyDigit],
      [anyDigit]]
  | .isoYear => [[anyDigit, anyDigit, anyDigit, anyDigit]]

/-- The ways to drop one blank or more from the start of a text, the longest first. -/
def dropBlanks (cs : List Char) : List (List Char) :=
  let n := (cs.takeWhile Text.isBlank).length
  (List.range n).map fun i => cs.drop (n - i)

/-- A field and the characters it took. -/
abbrev Capture := Field × List Char

/-- The first way in which the items match the start of a text, with what is left of the text. -/
def matchItems? : List Item → List Char → Option (List Capture × List Char)
  | [], cs => some ([], cs)
  | .char _ :: _, [] => none
  | .char c :: items, d :: cs => if ignoringCase c d then matchItems? items cs else none
  | .blanks :: items, cs => (dropBlanks cs).findSome? fun rest => matchItems? items rest
  | .field f :: items, cs =>
    f.forms.findSome? fun form =>
      match takeClasses? form cs with
      | none => none
      | some (taken, rest) =>
        (matchItems? items rest).map fun (captures, left) => ((f, taken) :: captures, left)

/-- What the fields of a match say. -/
structure Reading where
  year : Option Nat := none
  month : Nat := 1
  day : Nat := 1
  dayOfYear : Option Nat := none
  /-- The day of the week; Monday is zero. -/
  weekday : Option Nat := none
  /-- Whether weeks start on Sunday, and the number of the week. -/
  week : Option (Bool × Nat) := none
  isoYear : Option Nat := none
  isoWeek : Option Nat := none
  hour : Nat := 0
  minute : Nat := 0
  second : Nat := 0
  micros : Nat := 0
  offset : Option Int := none

/-- The offset in microseconds that a field spells. -/
def offsetMicros? (cs : List Char) : Option Int :=
  if cs = ['Z'] then some 0
  else
    let tidy? : Option (List Char) :=
      if cs[3]? = some ':' then
        let cs := cs.take 3 ++ cs.drop 4
        if 5 < cs.length then
          if cs[5]? = some ':' then some (cs.take 5 ++ cs.drop 6) else none
        else some cs
      else if cs[5]? = some ':' then none
      else some cs
    tidy?.map fun cs =>
      let part (start count : Nat) : Nat := Text.digitsValue ((cs.drop start).take count)
      let fraction := cs.drop 8
      let seconds := part 1 2 * 3600 + part 3 2 * 60 + part 5 2
      let n := seconds * secondMicros + Text.digitsValue fraction * 10 ^ (6 - fraction.length)
      if cs.head? = some '-' then -(n : Int) else n

def lowered (cs : List Char) : List Char := cs.flatMap Text.lowerChar

/-- The place of a name in a list, counted from zero. -/
def nameIndex (names : List String) (cs : List Char) : Nat :=
  names.findIdx (fun name => name.toList = lowered cs)

/-- The hour of the day for an hour of a half day. -/
def halfDayToHour (afternoon : Bool) (hour : Nat) : Nat :=
  if afternoon then (if hour = 12 then 12 else hour + 12) else (if hour = 12 then 0 else hour)

/-- Adds what one field says. -/
def Reading.add (afternoon : Bool) (r : Reading) : Capture → Option Reading
  | (.year, cs) => some { r with year := some (Text.digitsValue cs) }
  | (.shortYear, cs) =>
    let n := Text.digitsValue cs
    some { r with year := some (if n ≤ 68 then 2000 + n else 1900 + n) }
  | (.month, cs) => some { r with month := Text.digitsValue cs }
  | (.day, cs) => some { r with day := Text.digitsValue (cs.filter (· ≠ ' ')) }
  | (.dayOfYear, cs) => some { r with dayOfYear := some (Text.digitsValue cs) }
  | (.monthName, cs) => some { r with month := nameIndex monthNames cs + 1 }
  | (.shortMonthName, cs) => some { r with month := nameIndex (shortNames monthNames) cs + 1 }
  | (.dayName, cs) => some { r with weekday := some (nameIndex dayNames cs) }
  | (.shortDayName, cs) => some { r with weekday := some (nameIndex (shortNames dayNames) cs) }
  | (.hour, cs) => some { r with hour := Text.digitsValue cs }
  | (.halfDayHour, cs) => some { r with hour := halfDayToHour afternoon (Text.digitsValue cs) }
  | (.halfDay, _) => some r
  | (.minute, cs) => some { r with minute := Text.digitsValue cs }
  | (.second, cs) => some { r with second := Text.digitsValue cs }
  | (.fraction, cs) => some { r with micros := Text.digitsValue cs * 10 ^ (6 - cs.length) }
  | (.offset, cs) => (offsetMicros? cs).map fun n => { r with offset := some n }
  | (.zoneName, _) => some r
  | (.weekdayNumber, cs) => some { r with weekday := some ((Text.digitsValue cs + 6) % 7) }
  | (.isoWeekdayNumber, cs) => some { r with weekday := some (Text.digitsValue cs - 1) }
  | (.sundayWeek, cs) => some { r with week := some (true, Text.digitsValue cs) }
  | (.mondayWeek, cs) => some { r with week := some (false, Text.digitsValue cs) }
  | (.isoWeek, cs) => some { r with isoWeek := some (Text.digitsValue cs) }
  | (.isoYear, cs) => some { r with isoYear := some (Text.digitsValue cs) }

/-- Whether an ISO year comes with the ISO week and the weekday that it needs and without a day of
the year, and an ISO week only with an ISO year. -/
def Reading.isCoherent (r : Reading) : Bool :=
  match r.isoYear with
  | some _ => r.dayOfYear.isNone && r.isoWeek.isSome && r.weekday.isSome
  | none => r.isoWeek.isNone

/-- The day of the year, counted from one, of a weekday in a week. Week zero is what lies before the
first whole week, so that the day may be one of the year before. -/
def dayOfWeek (year : Nat) (fromSunday : Bool) (week weekday : Nat) : Int :=
  let shift := if fromSunday then 1 else 0
  let first := (Calendar.weekday (daysBeforeYear year) + shift) % 7
  let day := (weekday + shift) % 7
  if week = 0 then 1 + day - first
  else 1 + ((7 - first) % 7 + 7 * (week - 1) : Nat) + day

/-- The day of an ISO year, counted from one, of a weekday in an ISO week: the first week is the one
with 4 January. -/
def dayOfIsoWeek (year week weekday : Nat) : Int :=
  week * 7 + (weekday + 1) - (Calendar.weekday (daysBeforeYear year + 3) + 4)

/-- The year and the day of the year that a reading names. -/
def Reading.yearDay? (year : Nat) (r : Reading) : Option (Nat × Int) :=
  match r.dayOfYear, r.weekday, r.week, r.isoYear, r.isoWeek with
  | some n, _, _, _, _ => some (year, n)
  | none, some day, some (fromSunday, week), _, _ => some (year, dayOfWeek year fromSunday week day)
  | none, some day, none, some isoYear, some week => some (isoYear, dayOfIsoWeek isoYear week day)
  | none, _, _, _, _ => none

/-- The date of a reading. Without a year it is 1900, and 29 February of that year is no date; a
day of the year or of a week takes precedence over month and day. -/
def Reading.date? (r : Reading) : Option Date :=
  let leapDay := r.year.isNone && r.month == 2 && r.day == 29
  let year := r.year.getD (if leapDay then 1904 else 1900)
  if r.isCoherent then
    match r.yearDay? year with
    | none => if leapDay then none else Date.ofCivil? ⟨year, r.month, r.day⟩
    | some (year, n) =>
      if year = 0 then none
      else
        match Date.ofDay? ((daysBeforeYear year : Int) + n - 1) with
        | none => none
        | some d => if leapDay then Date.ofCivil? { d.civil with year := 1900 } else some d
  else none

def Reading.timestamp? (r : Reading) : Option Timestamp :=
  match r.date? with
  | none => none
  | some date =>
    let clock : Clock := ⟨r.hour, r.minute, r.second, r.micros⟩
    match r.offset with
    | none => Timestamp.ofParts? date clock none
    | some n =>
      match Offset.ofMicros? n with
      | none => none
      | some o => Timestamp.ofParts? date clock (some o)

end Calendar

open Calendar

/-- Reads a timestamp by a pattern; what the pattern does not say is taken from the start of
1900. -/
def Timestamp.ofPattern? (pattern text : String) : Option Timestamp :=
  match readItems? pattern.toList with
  | none => none
  | some items =>
    match matchItems? items text.toList with
    | some (captures, []) =>
      let afternoon := captures.any fun (f, cs) => f = .halfDay && lowered cs = "pm".toList
      match captures.foldlM (Reading.add afternoon) {} with
      | none => none
      | some r => r.timestamp?
    | _ => none

end AvroDocument
