import AvroDocument.Calendar.Iso
import AvroDocument.Calendar.Pattern
import AvroDocument.Options
import AvroDocument.Text.Lower

/-!
# AvroDocument.Coercion.Reading

Text read as a value of another type.

* `readText`: the value that a text stands for at a node of a type, if it stands for one.
-/

namespace AvroDocument
namespace Coercion

/-- Reads one of the words for true and false, without regard to case. -/
def readBool? (options : Options) (text : String) : Option Value :=
  let word := Text.lower text
  if (options.trueValues.map Text.lower).contains word then some (.bool true)
  else if (options.falseValues.map Text.lower).contains word then some (.bool false)
  else none

def readDate? (options : Options) (text : String) : Option Value :=
  match options.datePattern with
  | some pattern => (Timestamp.ofPattern? pattern text).map fun t => .date t.toDate
  | none => (Date.ofIso? text).map .date

def readTime? (options : Options) (text : String) : Option Value :=
  match options.timePattern with
  | some pattern => (Timestamp.ofPattern? pattern text).map fun t => .time t.toTime
  | none => (TimeOfDay.ofIso? text).map .time

/-- The text with a `Z` at its end spelled as an offset. -/
def spellUtc (text : String) : String :=
  match text.toList.reverse with
  | 'Z' :: rest => String.ofList rest.reverse ++ "+00:00"
  | 'z' :: rest => String.ofList rest.reverse ++ "+00:00"
  | _ => text

/-- Reads a timestamp. One that should be an instant and has no offset is read in the zone of the
job. -/
def readTimestamp? (options : Options) (isInstant : Bool) (text : String) : Option Value :=
  let read :=
    match options.timestampPattern with
    | some pattern => Timestamp.ofPattern? pattern text
    | none => Timestamp.ofIso? (spellUtc text)
  read.map fun t => .timestamp (if isInstant && !t.isAware then t.inZone options.zone else t)

/-- Reads an integer: a sign and digits. -/
def readInteger (text : String) : Except Failure (Option Value) :=
  match Text.readDigits? text.toList with
  | none => .ok none
  | some n =>
    if Json.digitLimit < (text.toList.filter Text.isDigit).length then
      .error (.argument .tooManyDigits)
    else .ok (some (.int n))

/-- Reads a number as an exact decimal. -/
def readDecimal? (text : String) : Option Value :=
  ((Text.Numeral.read? text.toList).bind Decimal.ofNumeral?).map .decimal

/-- What is read with a pattern, unless the pattern cannot be used. -/
def checkPattern (pattern : Option String) (value : Option Value) :
    Except Failure (Option Value) :=
  if pattern.any Calendar.repeatsField then .error .repeatedField else .ok value

/-- The value that a text stands for at a node of a type. -/
def readText (options : Options) (typeName : String) (logical : Option String) (text : String) :
    Except Failure (Option Value) :=
  let trimmed := Text.trim text
  let logicalName := logical.getD ""
  if typeName = "boolean" then .ok (readBool? options trimmed)
  else if logicalName = "date" then checkPattern options.datePattern (readDate? options trimmed)
  else if Schema.timeNames.contains logicalName then
    checkPattern options.timePattern (readTime? options trimmed)
  else if Schema.timestampNames.contains logicalName then
    checkPattern options.timestampPattern (readTimestamp? options true trimmed)
  else if Schema.localTimestampNames.contains logicalName then
    checkPattern options.timestampPattern (readTimestamp? options false trimmed)
  else
    let pointed := String.ofList (trimmed.toList.map fun c =>
      if c = options.decimalSeparator then '.' else c)
    if typeName = "int" || typeName = "long" then
      match readInteger pointed with
      | .ok none => .ok (if logicalName = "decimal" then readDecimal? pointed else none)
      | outcome => outcome
    else if typeName = "float" || typeName = "double" || logicalName = "decimal" then
      .ok (readDecimal? pointed)
    else .ok none

end Coercion
end AvroDocument
