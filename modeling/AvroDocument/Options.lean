import AvroDocument.Calendar.Zone
import AvroDocument.Failure

/-!
# AvroDocument.Options

The options of a job, shared by inference, encoding and decoding.

* `Settings`: the options as they are given, with their defaults.
* `Options.ofSettings`: the options when all of them are in order.
-/

namespace AvroDocument

open Calendar (Zone)

/-- What happens to a record that cannot be written or read. -/
inductive BadRecords where
  | fail
  | warn
  | skip
deriving DecidableEq

namespace BadRecords

def name : BadRecords → String
  | fail => "ERROR"
  | warn => "WARN"
  | skip => "SKIP"

/-- The capital of a letter; of other scripts only the letters whose capital is a Latin one count. -/
def upperChar (c : Char) : Char :=
  if c = 'ı' then 'I' else if c = 'ſ' then 'S' else c.toUpper

/-- The policy of a name, in small or capital letters. -/
def ofName? (s : String) : Option BadRecords :=
  let upper := String.ofList (s.toList.map upperChar)
  [fail, warn, skip].find? (·.name = upper)

end BadRecords

/-- The options of a job as they are given. -/
structure Settings where
  typeName : String := "Document"
  namespaceName : String := ""
  altNamesKey : String := "json"
  rowsToScan : Int := 0
  strictSchema : Bool := false
  strictUnknownFields : Bool := false
  onBadRecords : String := "ERROR"
  parseStrings : Bool := false
  trueValues : List String := ["t", "true", "enabled", "1", "on", "yes"]
  falseValues : List String := ["f", "false", "disabled", "0", "off", "no", ""]
  nullValues : List String :=
    ["", "#N/A", "#N/A N/A", "#NA", "-1.#IND", "-1.#QNAN", "-NaN", "1.#IND", "1.#QNAN", "NA",
      "n/a", "nan", "null"]
  decimalSeparator : String := "."
  dateFormat : Option String := none
  timeFormat : Option String := none
  timestampFormat : Option String := none
  timeZoneId : String := ""
  /-- The regions that the machine knows by a name. -/
  regions : Zone.Names := fun _ => none
  codec : String := "null"
  syncInterval : Int := 16000
  syncMarker : List UInt8 := (List.range 16).map UInt8.ofNat

/-- The options of a job. -/
structure Options where
  typeName : String
  namespaceName : String
  /-- The purpose under which the alternate names of fields are recorded. -/
  altNamesKey : String
  /-- The number of documents that inference looks at; zero stands for all. -/
  rowsToScan : Nat
  /-- Whether fields that the schema does not declare are refused. -/
  strictSchema : Bool
  /-- Whether payload fields and types that the schema does not know are refused. -/
  strictUnknownFields : Bool
  onBadRecords : BadRecords
  /-- Whether text at the position of another type is read as a value of that type. -/
  parseStrings : Bool
  trueValues : List String
  falseValues : List String
  nullValues : List String
  decimalSeparator : Char
  /-- The pattern of dates in text; ISO 8601 when there is none. -/
  datePattern : Option String
  timePattern : Option String
  timestampPattern : Option String
  /-- The zone of timestamps that have none. -/
  zone : Zone
  /-- The compression of blocks. -/
  codec : String
  /-- The size from which a block is closed. -/
  syncInterval : Int
  /-- The sixteen bytes between blocks. -/
  syncMarker : List UInt8

namespace Options

/-- A pattern; an empty one counts as none. -/
def pattern? (format : Option String) : Option String := format.filter (· ≠ "")

/-- Checks the options in a fixed order; the first fault counts. -/
def ofSettings (s : Settings) : Except Failure Options :=
  if s.rowsToScan < 0 then .error (.argument .negativeRowsToScan)
  else
    match BadRecords.ofName? s.onBadRecords with
    | none => .error (.argument (.unknownPolicy s.onBadRecords))
    | some policy =>
      match s.decimalSeparator.toList with
      | [separator] =>
        if s.syncMarker.length ≠ 16 then .error (.argument .shortSyncMarker)
        else
          match Zone.ofId s.regions s.timeZoneId with
          | .error .unknown => .error (.argument (.unknownZone s.timeZoneId))
          | .error (.offsetTooLarge n) => .error (.argument (.offsetTooLarge n))
          | .ok zone =>
            .ok {
              typeName := s.typeName
              namespaceName := s.namespaceName
              altNamesKey := s.altNamesKey
              rowsToScan := s.rowsToScan.toNat
              strictSchema := s.strictSchema
              strictUnknownFields := s.strictUnknownFields
              onBadRecords := policy
              parseStrings := s.parseStrings
              trueValues := s.trueValues
              falseValues := s.falseValues
              nullValues := s.nullValues
              decimalSeparator := separator
              datePattern := pattern? s.dateFormat
              timePattern := pattern? s.timeFormat
              timestampPattern := pattern? s.timestampFormat
              zone := zone
              codec := s.codec
              syncInterval := s.syncInterval
              syncMarker := s.syncMarker }
      | _ => .error (.argument .longSeparator)

end Options
end AvroDocument
