import AvroDocument.Binary.Layout
import AvroDocument.Binary.Varint
import AvroDocument.Binary.Word

/-!
# AvroDocument.Binary.Writer

Data as bytes.

* `Binary.unwrap`: the plain datum that is written for one with a meaning.
* `Binary.fits`: whether a datum can be written as a union member.
* `Binary.write`: the bytes of a datum. Fields that a record lacks are written as their default.
-/

namespace AvroDocument
namespace Binary

open Calendar (epochDay epochMicros)

/-- Why a datum is not written: it does not fit, its type has no precision, or a number is too
large. -/
inductive WriteFault where
  | rejected
  | noPrecision
  | overflow (fault : OverflowFault)
deriving DecidableEq

/-- The microseconds of a timestamp since 1970. -/
def timestampMicros (t : Timestamp) : Int := t.instantAt (t.offset.getD Offset.utc) - epochMicros

/-- The microseconds on the wall clock since 1970. -/
def wallMicros (t : Timestamp) : Int := (t.wall : Int) - epochMicros

/-- The coefficient of a decimal at the scale of a type. -/
def unscaled (type : DecimalType) (negative : Bool) (coefficient : Nat) (exponent : Int) :
    Except WriteFault Int :=
  match type.precision with
  | none => .error .noPrecision
  | some precision =>
    match type.scale with
    | none => .error .rejected
    | some scale =>
      if precision < Binary64.digitCount coefficient || exponent + scale < 0 then .error .rejected
      else
        let n : Int := (coefficient * 10 ^ (exponent + scale).toNat : Nat)
        .ok (if negative then -n else n)

/-- The plain datum that is written for one with a meaning; plain ones are written as they are. -/
def unwrap (meaning : Option Meaning) (datum : Value) : Except WriteFault Value :=
  match meaning, datum with
  | some .timestampMillis, .timestamp t => .ok (.int (timestampMicros t / 1000))
  | some .timestampMicros, .timestamp t => .ok (.int (timestampMicros t))
  | some .localTimestampMillis, .timestamp t => .ok (.int (wallMicros t / 1000))
  | some .localTimestampMicros, .timestamp t => .ok (.int (wallMicros t))
  | some .date, .date d => .ok (.int ((d.day : Int) - epochDay))
  | some .timeMillis, .time t => .ok (.int (t.micros / 1000 : Nat))
  | some .timeMicros, .time t => .ok (.int t.micros)
  | some (.decimal type), .decimal (.finite negative coefficient exponent) =>
    match unscaled type negative coefficient exponent with
    | .error e => .error e
    | .ok n => .ok (.bytes (Word.signedBytes (Word.signedSize n) n))
  | some (.decimal _), .decimal _ => .error .rejected
  | some .uuid, .uuid s => .ok (.text s)
  | _, v => .ok v

/-- The integer of a whole number; booleans count. -/
def whole? : Value → Option Int
  | .int n => some n
  | .bool b => some (if b then 1 else 0)
  | _ => none

/-- The floating point number of a number. -/
def real : Value → Except WriteFault Binary64
  | .float x => .ok x
  | v =>
    match whole? v with
    | none => .error .rejected
    | some n =>
      match Binary64.ofInt? n with
      | some x => .ok x
      | none => .error (.overflow .number)

/-- Whether a value counts as true: zero, nothing and what is empty do not. -/
def isTrue : Value → Bool
  | .null => false
  | .bool b => b
  | .int n => n ≠ 0
  | .float x => !x.isZero
  | .decimal (.finite _ c _) => c ≠ 0
  | .text s => s ≠ ""
  | .bytes bs => !bs.isEmpty
  | .byteArray bs => !bs.isEmpty
  | .list vs => !vs.isEmpty
  | .tuple vs => !vs.isEmpty
  | .struct entries => !entries.isEmpty
  | .set vs => !vs.isEmpty
  | _ => true

def writeBytes (bytes : List UInt8) : List UInt8 := Varint.writeInt bytes.length ++ bytes

def writeText (s : String) : List UInt8 := writeBytes (Text.utf8 s)

/-- The bytes of a plain datum of a primitive type. -/
def writePlain (type : Primitive) (datum : Value) : Except WriteFault (List UInt8) :=
  match type with
  | .null => .ok []
  | .boolean => .ok [if isTrue datum then 1 else 0]
  | .float => (real datum).map fun x => Word.littleEndian 4 x.toBinary32.toNat
  | .double => (real datum).map fun x => Word.littleEndian 8 x.bits.toNat
  | .bytes =>
    match datum with
    | .bytes bs => .ok (writeBytes bs)
    | .byteArray bs => .ok (writeBytes bs)
    | _ => .error .rejected
  | .string =>
    match datum with
    | .text s => .ok (writeText s)
    | _ => .error .rejected
  | _ =>
    match whole? datum with
    | none => .error .rejected
    | some n => if fitsInt64 n then .ok (Varint.writeInt n) else .error (.overflow .word)

/-- Whether a plain datum is of a primitive type. -/
def plainFits (type : Primitive) (datum : Value) : Bool :=
  match type, datum with
  | .null, .null => true
  | .boolean, .bool _ => true
  | .int, .int n => fitsInt32 n
  | .long, .int n => fitsInt64 n
  | .float, .int _ => true
  | .float, .float _ => true
  | .double, .int _ => true
  | .double, .float _ => true
  | .bytes, .bytes _ => true
  | .bytes, .byteArray _ => true
  | .string, .text _ => true
  | _, _ => false

/-- The bytes of a fixed datum; a decimal is written in two's complement. -/
def fixedBytes (size : Option Nat) (decimal : Option DecimalType) (datum : Value) :
    Except WriteFault (List UInt8) :=
  match size with
  | none => .error .rejected
  | some size =>
    let exactly (bs : List UInt8) : Except WriteFault (List UInt8) :=
      if bs.length = size then .ok bs else .error .rejected
    match decimal, datum with
    | some type, .decimal (.finite negative coefficient exponent) =>
      match unscaled type negative coefficient exponent with
      | .error e => .error e
      | .ok n => if size < Word.signedSize n then .error .rejected else .ok (Word.signedBytes size n)
    | _, .bytes bs => exactly bs
    | _, .byteArray bs => exactly bs
    | _, _ => .error .rejected

/-- The value of a field in a record: its own, or else its default. -/
def fieldValue (entries : List (Key × Value)) (name : String) (default : Option Json) : Value :=
  match Value.member? name entries with
  | some v => v
  | none => ((default.map Value.ofJson).getD .null)

mutual

/-- Whether a datum can be written as a layout. References take a unit of fuel. -/
def fits (types : Declarations) (fuel : Nat) (layout : Layout) (datum : Value) :
    Except WriteFault Bool :=
  match layout with
  | .primitive type meaning => (unwrap meaning datum).map (plainFits type)
  | .array items =>
    match datum.items? with
    | some vs => fitsItems types fuel items vs
    | none => .ok false
  | .map values =>
    match datum with
    | .struct entries => fitsItems types fuel values (entries.map (·.2))
    | _ => .ok false
  | .union members => fitsSome types fuel members datum
  | .enum _ symbols =>
    match datum with
    | .text s => .ok (symbols.contains s)
    | _ => .ok false
  | .fixed _ size decimal => .ok (fixedBytes size decimal datum).toBool
  | .record _ fields =>
    match datum with
    | .struct entries => fitsFields types fuel fields entries
    | _ => .ok false
  | .reference name =>
    match fuel, lookup? name types with
    | fuel + 1, some layout => fits types fuel layout datum
    | _, _ => .ok false
termination_by (fuel, sizeOf layout, 0)

def fitsItems (types : Declarations) (fuel : Nat) (items : Layout) (vs : List Value) :
    Except WriteFault Bool :=
  match vs with
  | [] => .ok true
  | v :: vs =>
    match fits types fuel items v with
    | .error e => .error e
    | .ok false => .ok false
    | .ok true => fitsItems types fuel items vs
termination_by (fuel, sizeOf items, vs.length + 1)

def fitsSome (types : Declarations) (fuel : Nat) (members : List Layout) (datum : Value) :
    Except WriteFault Bool :=
  match members with
  | [] => .ok false
  | member :: rest =>
    match fits types fuel member datum with
    | .error e => .error e
    | .ok true => .ok true
    | .ok false => fitsSome types fuel rest datum
termination_by (fuel, sizeOf members, 0)

def fitsFields (types : Declarations) (fuel : Nat)
    (fields : List (String × Option Json × Layout)) (entries : List (Key × Value)) :
    Except WriteFault Bool :=
  match fields with
  | [] => .ok true
  | (name, default, layout) :: rest =>
    match fits types fuel layout (fieldValue entries name default) with
    | .error e => .error e
    | .ok false => .ok false
    | .ok true => fitsFields types fuel rest entries
termination_by (fuel, sizeOf fields, 0)

end

/-- The position of the first union member that a datum fits. -/
def memberFor? (types : Declarations) (fuel : Nat) (datum : Value) :
    List Layout → Except WriteFault (Option Nat)
  | [] => .ok none
  | member :: rest =>
    match fits types fuel member datum with
    | .error e => .error e
    | .ok true => .ok (some 0)
    | .ok false => (memberFor? types fuel datum rest).map fun i => i.map (· + 1)

/-- Blocks of items: one with all of them unless there are none, then the empty one. -/
def writeBlock (count : Nat) (body : List UInt8) : List UInt8 :=
  if count = 0 then [0] else Varint.writeInt count ++ body ++ [0]

mutual

/-- The bytes of a datum. References take a unit of fuel. -/
def writeDatum (types : Declarations) (fuel : Nat) (layout : Layout) (datum : Value) :
    Except WriteFault (List UInt8) :=
  match layout with
  | .primitive type meaning =>
    match unwrap meaning datum with
    | .error e => .error e
    | .ok plain => writePlain type plain
  | .array items =>
    match datum.items? with
    | some vs => (writeItems types fuel items vs).map (writeBlock vs.length)
    | none => .error .rejected
  | .map values =>
    match datum with
    | .struct entries => (writeEntries types fuel values entries).map (writeBlock entries.length)
    | _ => .error .rejected
  | .union members =>
    match memberFor? types fuel datum members with
    | .error e => .error e
    | .ok none => .error .rejected
    | .ok (some i) =>
      (writeMember types fuel members i datum).map (Varint.writeInt i ++ ·)
  | .enum _ symbols =>
    match datum with
    | .text s =>
      match symbols.idxOf? s with
      | some i => .ok (Varint.writeInt i)
      | none => .error .rejected
    | _ => .error .rejected
  | .fixed _ size decimal => fixedBytes size decimal datum
  | .record _ [] => .ok []
  | .record _ fields =>
    match datum with
    | .struct entries => writeFields types fuel fields entries
    | _ => .error .rejected
  | .reference name =>
    match fuel, lookup? name types with
    | fuel + 1, some layout => writeDatum types fuel layout datum
    | _, _ => .error .rejected
termination_by (fuel, sizeOf layout, 0)

def writeItems (types : Declarations) (fuel : Nat) (items : Layout) (vs : List Value) :
    Except WriteFault (List UInt8) :=
  match vs with
  | [] => .ok []
  | v :: vs =>
    match writeDatum types fuel items v with
    | .error e => .error e
    | .ok bytes => (writeItems types fuel items vs).map (bytes ++ ·)
termination_by (fuel, sizeOf items, vs.length + 1)

def writeEntries (types : Declarations) (fuel : Nat) (values : Layout)
    (entries : List (Key × Value)) : Except WriteFault (List UInt8) :=
  match entries with
  | [] => .ok []
  | (.text key, v) :: entries =>
    match writeDatum types fuel values v with
    | .error e => .error e
    | .ok bytes => (writeEntries types fuel values entries).map (writeText key ++ bytes ++ ·)
  | _ :: _ => .error .rejected
termination_by (fuel, sizeOf values, entries.length + 1)

def writeMember (types : Declarations) (fuel : Nat) (members : List Layout) (index : Nat)
    (datum : Value) : Except WriteFault (List UInt8) :=
  match members, index with
  | [], _ => .error .rejected
  | member :: _, 0 => writeDatum types fuel member datum
  | _ :: rest, i + 1 => writeMember types fuel rest i datum
termination_by (fuel, sizeOf members, 0)

def writeFields (types : Declarations) (fuel : Nat)
    (fields : List (String × Option Json × Layout)) (entries : List (Key × Value)) :
    Except WriteFault (List UInt8) :=
  match fields with
  | [] => .ok []
  | (name, default, layout) :: rest =>
    match writeDatum types fuel layout (fieldValue entries name default) with
    | .error e => .error e
    | .ok bytes => (writeFields types fuel rest entries).map (bytes ++ ·)
termination_by (fuel, sizeOf fields, 0)

end

/-- The size of the defaults of a record. -/
def defaultWeight : List (String × Option Json × Layout) → Nat
  | [] => 0
  | (_, default, _) :: fields => 1 + (default.map Json.nodeCount).getD 0 + defaultWeight fields

/-- The size of the defaults of a declared type. -/
def typeWeight : Layout → Nat
  | .record _ fields => defaultWeight fields
  | _ => 0

/-- A bound on the references that are followed one inside the other for a datum. Each leads to a
value inside the datum or inside a default, and no default holds itself. -/
def writeDepth (types : Declarations) (datum : Value) : Nat :=
  datum.nodeCount + (types.map fun t => typeWeight t.2).foldr (· + ·) 0 + 2

/-- The bytes of a datum. -/
def write (layout : Layout) (datum : Value) : Except WriteFault (List UInt8) :=
  let types := layout.declarations
  writeDatum types (writeDepth types datum) layout datum

end Binary
end AvroDocument
