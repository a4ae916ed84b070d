import AvroDocument.Json.Writer
import AvroDocument.Text.Base64
import AvroDocument.Value.Display

/-!
# AvroDocument.Value.Text

The text that stands for a value where only text can stand.

* `Value.plainText?`: the text of a scalar.
* `Value.toJson`: the JSON tree of a value; what JSON cannot hold becomes its text.
* `Value.toText`: the text of a scalar, the compact JSON text of a list or struct.
* `Value.jsonText`: the JSON text of a value.

Integers have a text only up to a number of digits; all of these fail on longer ones.
-/

namespace AvroDocument

/-- Why a value has no text: a part of it is no interchange value, or an integer with too many
digits. -/
inductive TextFault where
  | unsupported (typeName : String)
  | tooManyDigits

/-- The digits of an integer, behind its sign. -/
def integerText (n : Int) : Except TextFault String :=
  if Json.digitLimit < Binary64.digitCount n.natAbs then .error .tooManyDigits
  else .ok (toString n)

/-- The member name that stands for a key in JSON. -/
def Key.jsonName : Key → Except TextFault String
  | .text s => .ok s
  | .null => .ok "null"
  | .bool b => .ok (Json.boolText b)
  | .int n => integerText n
  | .float x => .ok (Json.floatText x)

namespace Value

/-- The text of a scalar, unless it has too many digits: exact decimals are written out, bytes are in
base 64. -/
def plainText? : Value → Option (Except TextFault String)
  | null => some (.ok "null")
  | bool b => some (.ok (Json.boolText b))
  | int n => some (integerText n)
  | float x => some (.ok x.text)
  | decimal d => some (.ok d.positional)
  | text s => some (.ok s)
  | timestamp t => some (.ok t.text)
  | date d => some (.ok d.text)
  | time t => some (.ok t.text)
  | bytes bs => some (.ok (Text.base64 bs))
  | byteArray bs => some (.ok (Text.base64 bs))
  | list _ => none
  | tuple _ => none
  | struct _ => none
  | uuid _ => none
  | set _ => none
  | missing => none

/-- The JSON string of a scalar that JSON cannot hold; other objects fail with their type name. -/
def stringJson (v : Value) : Except TextFault Json :=
  match v.plainText? with
  | some outcome => outcome.map Json.str
  | none => .error (.unsupported v.typeName)

mutual

/-- The JSON tree of a value. An unsupported object fails with its type name; identifiers are
supported on request only. -/
def toJson (identifiers : Bool) : Value → Except TextFault Json
  | null => .ok .null
  | bool b => .ok (.bool b)
  | int n => (integerText n).map fun _ => .int n
  | float x => .ok (.float x)
  | list vs =>
    match toJsonItems identifiers vs with
    | .error e => .error e
    | .ok js => .ok (.arr js)
  | tuple vs =>
    match toJsonItems identifiers vs with
    | .error e => .error e
    | .ok js => .ok (.arr js)
  | struct entries =>
    match toJsonMembers identifiers entries with
    | .error e => .error e
    | .ok ms => .ok (.obj ms)
  | uuid s => if identifiers then .ok (.str s) else .error (.unsupported (typeName (.uuid s)))
  | v => stringJson v

def toJsonItems (identifiers : Bool) : List Value → Except TextFault (List Json)
  | [] => .ok []
  | v :: vs =>
    match toJson identifiers v with
    | .error e => .error e
    | .ok j =>
      match toJsonItems identifiers vs with
      | .error e => .error e
      | .ok js => .ok (j :: js)

def toJsonMembers (identifiers : Bool) :
    List (Key × Value) → Except TextFault (List (String × Json))
  | [] => .ok []
  | (k, v) :: entries =>
    match k.jsonName with
    | .error e => .error e
    | .ok name =>
      match toJson identifiers v with
      | .error e => .error e
      | .ok j =>
        match toJsonMembers identifiers entries with
        | .error e => .error e
        | .ok ms => .ok ((name, j) :: ms)

end

/-- The text written for a value at a string position. -/
def toText (v : Value) : Except TextFault String :=
  match v.plainText? with
  | some outcome => outcome
  | none =>
    if v.kind?.isNone then .error (.unsupported v.typeName)
    else (v.toJson true).map (Json.text Json.Style.compact)

/-- The JSON text of a value, on one line. -/
def jsonText (v : Value) : Except TextFault String :=
  (v.toJson false).map (Json.text Json.Style.spaced)

end Value
end AvroDocument
