import AvroDocument.Text.Quoted
import AvroDocument.Value

/-!
# AvroDocument.Value.Display

How messages show values: a literal that tells values of different types apart.

* `Value.display`: the literal.
* `Value.describe`: the type name and the literal, cut when it is long.
-/

namespace AvroDocument

def displayBool (b : Bool) : String := if b then "True" else "False"

/-- The arguments of a call, separated by commas. -/
def callText (name : String) (arguments : List String) : String :=
  name ++ "(" ++ String.intercalate ", " arguments ++ ")"

/-- A distance in time as days, seconds and microseconds, the latter two not negative. -/
def displayMicros (n : Int) : String :=
  let days := n / (Calendar.dayMicros : Int)
  let rest := (n % (Calendar.dayMicros : Int)).toNat
  let part (name : String) (n : Int) : List String :=
    if n = 0 then [] else [name ++ "=" ++ toString n]
  callText "datetime.timedelta"
    (part "days" days ++ part "seconds" (rest / Calendar.secondMicros : Nat) ++
      part "microseconds" (rest % Calendar.secondMicros : Nat))

namespace Offset

def display (o : Offset) : String :=
  if o.micros = 0 then "datetime.timezone.utc"
  else callText "datetime.timezone" [displayMicros o.micros]

def argument : Option Offset → List String
  | none => []
  | some o => ["tzinfo=" ++ o.display]

end Offset

/-- Hours and minutes, then seconds and microseconds up to the last one that is not zero. -/
def Clock.arguments (c : Clock) : List String :=
  [toString c.hour, toString c.minute] ++
    (if c.second ≠ 0 || c.micros ≠ 0 then [toString c.second] else []) ++
    (if c.micros ≠ 0 then [toString c.micros] else [])

def Civil.arguments (c : Civil) : List String :=
  [toString c.year, toString c.month, toString c.day]

def Key.display : Key → String
  | .text s => Text.quoted s
  | .null => "None"
  | .bool b => displayBool b
  | .int n => toString n
  | .float x => x.text

namespace Value

mutual

/-- The literal of a value. -/
def display : Value → String
  | null => "None"
  | bool b => displayBool b
  | int n => toString n
  | float x => x.text
  | decimal d => "Decimal('" ++ d.text ++ "')"
  | text s => Text.quoted s
  | timestamp t =>
    callText "datetime.datetime"
      (t.toDate.civil.arguments ++ t.clock.arguments ++ Offset.argument t.offset)
  | date d => callText "datetime.date" d.civil.arguments
  | time t => callText "datetime.time" (t.clock.arguments ++ Offset.argument t.offset)
  | bytes bs => Text.quotedBytes bs
  | byteArray bs => "bytearray(" ++ Text.quotedByteArray bs ++ ")"
  | list vs => "[" ++ displayItems vs ++ "]"
  | tuple [v] => "(" ++ display v ++ ",)"
  | tuple vs => "(" ++ displayItems vs ++ ")"
  | struct entries => "\x7b" ++ displayEntries entries ++ "\x7d"
  | uuid s => "UUID(" ++ Text.quoted s ++ ")"
  | set [] => "set()"
  | set vs => "\x7b" ++ displayItems vs ++ "\x7d"
  | missing => "<missing>"

def displayItems : List Value → String
  | [] => ""
  | [v] => display v
  | v :: vs => display v ++ ", " ++ displayItems vs

def displayEntries : List (Key × Value) → String
  | [] => ""
  | [(k, v)] => k.display ++ ": " ++ display v
  | (k, v) :: entries => k.display ++ ": " ++ display v ++ ", " ++ displayEntries entries

end

/-- A text of more than sixty characters, cut to sixty with an ellipsis. -/
def shorten (s : String) : String :=
  if 60 < s.length then String.ofList (s.toList.take 57) ++ "..." else s

/-- A value in a message: its type and its literal. -/
def describe (v : Value) : String :=
  match v with
  | missing => "missing field"
  | v => v.typeName ++ " " ++ shorten v.display

end Value

/-- The literal of a JSON tree. -/
def Json.display (j : Json) : String := (Value.ofJson j).display

end AvroDocument
