import AvroDocument.Coercion.Reading
import AvroDocument.Value.Text

/-!
# AvroDocument.Coercion

The table of scalars: which values a primitive node holds, and what is made of the others.

* `coerce`: the datum of a value at a node. Whatever inference widened to string can be written as
  one; text becomes a value of another type only on request.
-/

namespace AvroDocument
namespace Coercion

/-- The failure of a value that the node does not hold. -/
def refuse {α : Type} (path : String) (schema : Json) (value : Value) : Except Failure α :=
  .error (.encoding path schema value .wrongType)

/-- The scale of a decimal node. -/
def scaleOf (schema : Json) : Except Failure Int :=
  match (schema.getD "scale" (.int 0)).int? with
  | some n => .ok n
  | none => .error .wrongOperand

/-- The exact decimal of a number. -/
def decimalOf? : Value → Option Decimal
  | .int n => some (Decimal.ofInt n)
  | .decimal d => some d
  | .float x => some (Decimal.ofBinary64 x)
  | _ => none

/-- The text of a number in a message. -/
def numberText : Value → String
  | .int n => toString n
  | .decimal d => d.text
  | .float x => x.text
  | _ => ""

/-- The exponent of numbers with a scale. It is that of `10 ^ -scale` in decimal arithmetic, where a
number that is too small keeps the least exponent. -/
def targetOf (scale : Int) : Except Failure Int :=
  if Decimal.shiftLimit < scale.natAbs then .error .invalidOperation
  else if Decimal.workingExponent < -scale then .error .exponentOverflow
  else .ok (max (-scale) Decimal.workingFloor)

/-- A number with as many places as the scale of the node, if none is lost. -/
def scaled (path : String) (schema : Json) (value : Value) (number : Decimal) :
    Except Failure Value :=
  match scaleOf schema with
  | .error e => .error e
  | .ok scale =>
    let wrongScale : Except Failure Value :=
      .error (.encoding path schema value
        (.wrongScale (numberText value) (schema.getD "scale" (.int 0)).display))
    match targetOf scale with
    | .error e => .error e
    | .ok target =>
      match number with
      | .infinite _ => .error .invalidOperation
      | .nan _ true _ => .error .invalidOperation
      | .nan _ false _ => wrongScale
      | .finite negative coefficient exponent =>
        match Decimal.quantize? coefficient exponent target with
        | none => .error .invalidOperation
        | some r =>
          if r.exact then .ok (.decimal (.finite negative r.coefficient target)) else wrongScale

/-- A value at a floating point node. -/
def toFloat (path : String) (schema : Json) (value : Value) : Except Failure Value :=
  match value with
  | .float x => .ok (.float x)
  | .int n =>
    match Binary64.ofInt? n with
    | some x => .ok (.float x)
    | none => .error (.overflow .number)
  | .decimal d =>
    match d.toBinary64? with
    | some x => .ok (.float x)
    | none => .error (.argument .signalingNaN)
  | v => refuse path schema v

/-- A value at a node of an integer type, which may stand for a date or a time. -/
def toInteger (options : Options) (path : String) (schema : Json) (typeName logical : String)
    (value : Value) : Except Failure Value :=
  if logical = "date" then
    match value with
    | .date d => .ok (.date d)
    | v => refuse path schema v
  else if Schema.timeNames.contains logical then
    match value with
    | .time t => .ok (.time t)
    | v => refuse path schema v
  else if Schema.timestampNames.contains logical then
    match value with
    | .timestamp t => .ok (.timestamp (if t.isAware then t else t.inZone options.zone))
    | v => refuse path schema v
  else if Schema.localTimestampNames.contains logical then
    match value with
    | .timestamp t =>
      match t.offset with
      | none => .ok (.timestamp t)
      | some offset =>
        match t.toZone? offset options.zone with
        | some t => .ok (.timestamp t)
        | none => .error (.overflow .time)
    | v => refuse path schema v
  else
    match value with
    | .int n =>
      let fits := if typeName = "int" then fitsInt32 n else fitsInt64 n
      if fits then .ok (.int n)
      else if fitsInt64 n then .error (.encoding path schema value (.outOfRange n typeName))
      else refuse path schema value
    | v => refuse path schema v

/-- A value at a bytes node, which may stand for an exact decimal. -/
def toBytes (path : String) (schema : Json) (logical : String) (value : Value) :
    Except Failure Value :=
  if logical = "decimal" then
    match decimalOf? value with
    | some number => scaled path schema value number
    | none => refuse path schema value
  else
    match value with
    | .bytes bs => .ok (.bytes bs)
    | .byteArray bs => .ok (.bytes bs)
    | .text s => .ok (.bytes (Text.utf8 s))
    | v => refuse path schema v

/-- A value at a string node: its text. -/
def toString (value : Value) : Except Failure Value :=
  match value.toText with
  | .ok s => .ok (.text s)
  | .error fault => .error (Failure.ofText fault)

/-- The value that stands for text at a node, when text is read. -/
def readValue (options : Options) (schema : Json) (value : Value) : Except Failure Value :=
  match value with
  | .text s =>
    if options.parseStrings && Schema.typeName schema ≠ "string" then
      match readText options (Schema.typeName schema) (Schema.logicalName? schema) s with
      | .error e => .error e
      | .ok none => .ok (.text s)
      | .ok (some v) => .ok v
    else .ok (.text s)
  | v => .ok v

/-- A value at a node, when nothing is left to read. -/
def convert (options : Options) (path : String) (schema : Json) (value : Value) :
    Except Failure Value :=
  let typeName := Schema.typeName schema
  let logical := (Schema.logicalName? schema).getD ""
  if typeName = "null" then
    match value with
    | .null => .ok .null
    | v => refuse path schema v
  else if typeName = "string" then toString value
  else if typeName = "boolean" then
    match value with
    | .bool b => .ok (.bool b)
    | v => refuse path schema v
  else if typeName = "int" || typeName = "long" then
    toInteger options path schema typeName logical value
  else if typeName = "float" || typeName = "double" then toFloat path schema value
  else if typeName = "bytes" then toBytes path schema logical value
  else refuse path schema value

end Coercion

open Coercion

/-- The datum of a value at a primitive node. Identifiers count as their text. -/
def coerce (options : Options) (path : String) (schema : Json) (value : Value) :
    Except Failure Value :=
  match value with
  | .set _ => refuse path schema value
  | .missing => refuse path schema value
  | _ =>
    let plain :=
      match value with
      | .uuid s => .text s
      | v => v
    match readValue options schema plain with
    | .error e => .error e
    | .ok v => convert options path schema v

end AvroDocument
