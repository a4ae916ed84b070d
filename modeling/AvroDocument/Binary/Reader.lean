import AvroDocument.Binary.Identifier
import AvroDocument.Binary.Layout
import AvroDocument.Binary.Varint
import AvroDocument.Binary.Word

/-!
# AvroDocument.Binary.Reader

Data from bytes.

* `Binary.wrap`: the datum with a meaning that a plain one stands for.
* `Binary.read`: the datum at the start of some bytes, and the bytes behind it. A failure tells what
  was left when reading stopped; data that are cut short use up everything.
-/

namespace AvroDocument
namespace Binary

open Calendar (epochDay epochMicros)

/-- A datum and the bytes behind it, or the bytes that were left when reading failed. -/
abbrev ReadResult (α : Type) := Except (List UInt8) (α × List UInt8)

/-! ## Meanings -/

/-- The timestamp of a number of microseconds since 1970. -/
def timestampOf? (micros : Int) (offset : Option Offset) : Option Value :=
  (Timestamp.ofWall? (micros + epochMicros) offset).map .timestamp

/-- The decimal of a coefficient, rounded to the digits of its type. -/
def decimalOf? (type : DecimalType) (n : Int) : Option Value :=
  match type.precision, type.scale with
  | some precision, some scale =>
    if precision = 0 then none
    else
      let digits := Binary64.digitCount n.natAbs
      let dropped := digits - precision
      let c := Format.nearest n.natAbs (10 ^ dropped)
      let (c, dropped) :=
        if precision < Binary64.digitCount c then (c / 10, dropped + 1) else (c, dropped)
      some (.decimal (.finite (decide (n < 0)) c (dropped - scale)))
  | _, _ => none

/-- The datum that a plain one stands for; `none` when it stands for nothing. -/
def wrap (meaning : Option Meaning) (plain : Value) : Option Value :=
  match meaning, plain with
  | some .timestampMillis, .int n => timestampOf? (n * 1000) (some Offset.utc)
  | some .timestampMicros, .int n => timestampOf? n (some Offset.utc)
  | some .localTimestampMillis, .int n => timestampOf? (n * 1000) none
  | some .localTimestampMicros, .int n => timestampOf? n none
  | some .date, .int n => (Date.ofDay? (n + epochDay)).map .date
  | some .timeMillis, .int n => (TimeOfDay.ofMicros? (n * 1000) none).map .time
  | some .timeMicros, .int n => (TimeOfDay.ofMicros? n none).map .time
  | some (.decimal type), .bytes bs => decimalOf? type (Word.ofSignedBytes bs)
  | some .uuid, .text s => (identifier? s).map .uuid
  | _, v => some v

/-! ## Plain data -/

/-- Takes a number of bytes; what is too short is used up. -/
def takeBytes : Nat → List UInt8 → ReadResult (List UInt8)
  | 0, bytes => .ok ([], bytes)
  | _ + 1, [] => .error []
  | count + 1, b :: bytes => (takeBytes count bytes).map fun (body, rest) => (b :: body, rest)

def readInt (bytes : List UInt8) : ReadResult Int :=
  match Varint.readInt? bytes with
  | some (n, rest) => .ok (n, rest)
  | none => .error []

/-- Bytes with their number in front. -/
def readSized (bytes : List UInt8) : ReadResult (List UInt8) :=
  match readInt bytes with
  | .error e => .error e
  | .ok (n, rest) => takeBytes n.toNat rest

def readText (bytes : List UInt8) : ReadResult String :=
  match readSized bytes with
  | .error e => .error e
  | .ok (body, rest) =>
    match Text.ofUtf8? body with
    | some s => .ok (s, rest)
    | none => .error rest

/-- Reads a plain datum of a primitive type. -/
def readPlain (type : Primitive) (bytes : List UInt8) : ReadResult Value :=
  match type with
  | .null => .ok (.null, bytes)
  | .boolean =>
    match bytes with
    | [] => .error []
    | b :: rest => .ok (.bool (b ≠ 0), rest)
  | .float =>
    (takeBytes 4 bytes).map fun (body, rest) =>
      (.float (Binary64.ofBinary32 (UInt32.ofNat (Word.ofLittleEndian body))), rest)
  | .double =>
    (takeBytes 8 bytes).map fun (body, rest) =>
      (.float ⟨UInt64.ofNat (Word.ofLittleEndian body)⟩, rest)
  | .bytes => (readSized bytes).map fun (body, rest) => (.bytes body, rest)
  | .string => (readText bytes).map fun (s, rest) => (.text s, rest)
  | _ => (readInt bytes).map fun (n, rest) => (.int n, rest)

/-- The place that an index stands for in a list; negative ones count from its end. -/
def place? (n : Int) (length : Nat) : Option Nat :=
  if 0 ≤ n then (if n < length then some n.toNat else none)
  else if -(length : Int) ≤ n then some (n + length).toNat
  else none

/-- The datum of fixed bytes. -/
def fixedValue? (decimal : Option DecimalType) (body : List UInt8) : Option Value :=
  match decimal with
  | some type => decimalOf? type (Word.ofSignedBytes body)
  | none => some (.bytes body)

/-- The number of items in the next block. A negative number comes with the size of the block. -/
def readBlockCount (bytes : List UInt8) : ReadResult Nat :=
  match readInt bytes with
  | .error e => .error e
  | .ok (n, rest) =>
    if 0 ≤ n then .ok (n.toNat, rest)
    else (readInt rest).map fun (_, rest) => (n.natAbs, rest)

/-! ## Data of any layout -/

mutual

/-- Reads a datum. References and blocks take a unit of fuel. -/
def readDatum (types : Declarations) (fuel : Nat) (layout : Layout) (bytes : List UInt8) :
    ReadResult Value :=
  match layout with
  | .primitive type meaning =>
    match readPlain type bytes with
    | .error e => .error e
    | .ok (plain, rest) =>
      match wrap meaning plain with
      | some v => .ok (v, rest)
      | none => .error rest
  | .array items =>
    (readBlocks types fuel items [] bytes).map fun (vs, rest) => (.list vs, rest)
  | .map values =>
    (readMapBlocks types fuel values [] bytes).map fun (entries, rest) => (.struct entries, rest)
  | .union members =>
    match readInt bytes with
    | .error e => .error e
    | .ok (n, rest) =>
      match place? n members.length with
      | none => .error rest
      | some i => readMember types fuel members i rest
  | .enum _ symbols =>
    match readInt bytes with
    | .error e => .error e
    | .ok (n, rest) =>
      match (place? n symbols.length).bind (symbols[·]?) with
      | some s => .ok (.text s, rest)
      | none => .error rest
  | .fixed _ none _ => .error bytes
  | .fixed _ (some size) decimal =>
    match takeBytes size bytes with
    | .error e => .error e
    | .ok (body, rest) =>
      match fixedValue? decimal body with
      | some v => .ok (v, rest)
      | none => .error rest
  | .record _ fields =>
    (readFields types fuel fields [] bytes).map fun (entries, rest) => (.struct entries, rest)
  | .reference name =>
    match fuel, lookup? name types with
    | fuel + 1, some layout => readDatum types fuel layout bytes
    | _, _ => .error bytes
termination_by (fuel, sizeOf layout, 0)

/-- Reads blocks of items up to the empty one; `taken` holds the items of the earlier ones. -/
def readBlocks (types : Declarations) (fuel : Nat) (items : Layout) (taken : List Value)
    (bytes : List UInt8) : ReadResult (List Value) :=
  match readBlockCount bytes with
  | .error e => .error e
  | .ok (0, rest) => .ok (taken, rest)
  | .ok (count, rest) =>
    match fuel with
    | 0 => .error rest
    | fuel + 1 =>
      match readItems types fuel items count rest with
      | .error e => .error e
      | .ok (vs, rest) => readBlocks types fuel items (taken ++ vs) rest
termination_by (fuel, sizeOf items, 0)

def readItems (types : Declarations) (fuel : Nat) (items : Layout) (count : Nat)
    (bytes : List UInt8) : ReadResult (List Value) :=
  match count with
  | 0 => .ok ([], bytes)
  | count + 1 =>
    match readDatum types fuel items bytes with
    | .error e => .error e
    | .ok (v, rest) =>
      (readItems types fuel items count rest).map fun (vs, rest) => (v :: vs, rest)
termination_by (fuel, sizeOf items, count + 1)

def readMapBlocks (types : Declarations) (fuel : Nat) (values : Layout)
    (taken : List (Key × Value)) (bytes : List UInt8) : ReadResult (List (Key × Value)) :=
  match readBlockCount bytes with
  | .error e => .error e
  | .ok (0, rest) => .ok (taken, rest)
  | .ok (count, rest) =>
    match fuel with
    | 0 => .error rest
    | fuel + 1 =>
      match readEntries types fuel values count taken rest with
      | .error e => .error e
      | .ok (taken, rest) => readMapBlocks types fuel values taken rest
termination_by (fuel, sizeOf values, 0)

def readEntries (types : Declarations) (fuel : Nat) (values : Layout) (count : Nat)
    (taken : List (Key × Value)) (bytes : List UInt8) : ReadResult (List (Key × Value)) :=
  match count with
  | 0 => .ok (taken, bytes)
  | count + 1 =>
    match readText bytes with
    | .error e => .error e
    | .ok (key, rest) =>
      match readDatum types fuel values rest with
      | .error e => .error e
      | .ok (v, rest) => readEntries types fuel values count (Value.setEntry key v taken) rest
termination_by (fuel, sizeOf values, count + 1)

def readMember (types : Declarations) (fuel : Nat) (members : List Layout) (index : Nat)
    (bytes : List UInt8) : ReadResult Value :=
  match members, index with
  | [], _ => .error bytes
  | member :: _, 0 => readDatum types fuel member bytes
  | _ :: rest, i + 1 => readMember types fuel rest i bytes
termination_by (fuel, sizeOf members, 0)

def readFields (types : Declarations) (fuel : Nat)
    (fields : List (String × Option Json × Layout)) (taken : List (Key × Value))
    (bytes : List UInt8) : ReadResult (List (Key × Value)) :=
  match fields with
  | [] => .ok (taken, bytes)
  | (name, _, layout) :: fields =>
    match readDatum types fuel layout bytes with
    | .error e => .error e
    | .ok (v, rest) => readFields types fuel fields (Value.setEntry name v taken) rest
termination_by (fuel, sizeOf fields, 0)

end

/-- A bound on the references and blocks that are read one inside or after the other. A block takes
at least one byte; between two bytes no type can come up twice, because it would come up for ever. -/
def readDepth (types : Declarations) (bytes : List UInt8) : Nat :=
  (bytes.length + 1) * (types.length + 2)

/-- The datum at the start of some bytes, and the bytes behind it. -/
def read (layout : Layout) (bytes : List UInt8) : ReadResult Value :=
  let types := layout.declarations
  readDatum types (readDepth types bytes) layout bytes

end Binary
end AvroDocument
