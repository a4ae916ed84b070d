import AvroDocument.Json.Reader
import AvroDocument.Pointer
import AvroDocument.Schema
import AvroDocument.Text.Utf8
import AvroDocument.Value.Text

/-!
# AvroDocument.Failure

Everything that can go wrong, as causes. Most failures carry the path at which they arose.

* `Failure`: the sum of all of them.
* `Failure.message`: the wording.
* `Failure.path?`, `Failure.offset?`: where in the document, and where in the bytes.
* `Failure.valueAt`: what the path leads to in a document.
-/

namespace AvroDocument

/-- What is wrong with a schema. -/
inductive SchemaFault where
  | unknownReference (name : String)
  | tooManyMembers
  | nestedUnion
  | notANode (node : Json)
  | namelessField
  | duplicateField (field record : String)
  | unsupportedType (type : Option Json)
  | malformed

/-- Why no schema is inferred. -/
inductive InferenceFault where
  | unsupportedValue (document : Nat) (typeName : String)
  | notARecord (document : Nat) (kind : Kind)
  | badKey (document : Nat) (typeName : String)
  | emptyInput

/-- Why a value is not written. -/
inductive EncodingFault where
  | wrongType
  | missingField (key : String)
  | undeclaredField (key record : String)
  | outOfRange (n : Int) (typeName : String)
  | wrongScale (number scale : String)
  | rejected
  | rejectedRecord (index : Nat)
  | writerFailed (count : Nat)

/-- Why payload data do not fit a schema. -/
inductive MismatchFault where
  | wrongType (actual : Json)
  | unknownType (name : String)
  | missingField (key : String)
  | unknownField (field record : String)
  | mayBeNull
  | unwrittenField (name : String)
  | unreadField (name : String) (type : Option Json)

/-- Data that do not fit a schema: where, the type that the schema expects there, and why. -/
structure Mismatch where
  path : String
  expected : Json
  fault : MismatchFault

/-- Why bytes are not read. -/
inductive DecodingFault where
  | badHeader
  | badBlock
  | badBlockRecord (index : Nat)
  | badRecord
  | trailingBytes (count : Nat)
  | unfit (mismatch : Mismatch)

/-- What is wrong with the options of a job or with the arguments of an operation. -/
inductive ArgumentFault where
  | negativeRowsToScan
  | unknownPolicy (name : String)
  | longSeparator
  | shortSyncMarker
  | unknownZone (id : String)
  | offsetTooLarge (micros : Int)
  | invalidJson (line : Nat) (fault : Json.Fault)
  | tooManyDigits
  | signalingNaN
  | notANumber
  | schemaRequired
  | inputRequired
  | badIndex

/-- What is too large: an integer for a floating point number or for 64 bits, or a time for the
calendar. -/
inductive OverflowFault where
  | number
  | word
  | time
deriving DecidableEq

/-- Why a file is not opened. -/
inductive FileFault where
  | absent
  | behindFile
  | isFolder
deriving DecidableEq

/-- A failure of an operation. -/
inductive Failure where
  | invalidSchema (path : String) (fault : SchemaFault)
  | inference (path : String) (fault : InferenceFault)
  | encoding (path : String) (expected : Json) (actual : Value) (fault : EncodingFault)
  | decoding (offset : Nat) (fault : DecodingFault)
  | mismatch (mismatch : Mismatch)
  | argument (fault : ArgumentFault)
  | unsupportedValue (typeName : String)
  | notScalar (kind : Kind)
  | wrongOperand
  | noAttribute
  | missingKey (key : String)
  | overflow (fault : OverflowFault)
  | invalidOperation
  | exponentOverflow
  | badPointer
  | repeatedField
  | file (name : String) (fault : FileFault)
  | notUtf8 (fault : Text.Utf8Fault)
  | malformedFile (fault : Json.Fault) (content : String) (left : Nat)

/-- Stands in messages for the cause that a layer below gives; its wording is not fixed. -/
def unstatedCause : String := "<cause>"

namespace SchemaFault

def message : SchemaFault → String
  | unknownReference name => "Unknown type reference '" ++ name ++ "'"
  | tooManyMembers => "Unions may only combine one type with null"
  | nestedUnion => "Unions may not contain unions"
  | notANode node => "Invalid schema node " ++ node.display
  | namelessField => "Record field without a name"
  | duplicateField field record =>
    "Duplicate field '" ++ field ++ "' in record '" ++ record ++ "'"
  | unsupportedType type => "Unsupported type '" ++ Schema.plainOption type ++ "'"
  | malformed => "Invalid Avro schema: " ++ unstatedCause

end SchemaFault

namespace InferenceFault

def documentText (document : Nat) : String := "Document " ++ toString document ++ ": "

def message : InferenceFault → String
  | unsupportedValue document typeName =>
    documentText document ++ "Unsupported value type " ++ typeName
  | notARecord document kind =>
    documentText document ++ "top-level values must be records, got " ++ kind.name
  | badKey document typeName =>
    documentText document ++ "record keys must be strings, got " ++ typeName
  | emptyInput => "Cannot infer a schema from an empty input"

end InferenceFault

/-- The least and the greatest number of an integer type. -/
def integerBounds (typeName : String) : Int × Int :=
  if typeName = "int" then (-2147483648, 2147483647)
  else (-9223372036854775808, 9223372036854775807)

namespace EncodingFault

def message (expected : Json) (actual : Value) : EncodingFault → String
  | wrongType => "Expected " ++ Schema.describe expected ++ ", got " ++ actual.describe
  | missingField key => "Missing required field '" ++ key ++ "'"
  | undeclaredField key record =>
    "Field '" ++ key ++ "' is not declared in record '" ++ record ++ "'"
  | outOfRange n typeName =>
    let (low, high) := integerBounds typeName
    "Integer " ++ toString n ++ " out of " ++ typeName ++ " range [" ++ toString low ++ ", " ++
      toString high ++ "]"
  | wrongScale number scale => "Decimal " ++ number ++ " does not fit scale " ++ scale
  | rejected => "Avro writer rejected the record: " ++ unstatedCause
  | rejectedRecord index =>
    "Avro writer rejected record " ++ toString index ++ ": " ++ unstatedCause
  | writerFailed count =>
    "Avro writer failed after " ++ toString count ++ " records: " ++ unstatedCause

end EncodingFault

namespace MismatchFault

def message (expected : Json) : MismatchFault → String
  | wrongType actual =>
    "Schema expects " ++ Schema.describe expected ++ ", payload has " ++ Schema.describe actual
  | unknownType name => "Unknown type '" ++ name ++ "'"
  | missingField key => "Field '" ++ key ++ "' is missing from the payload"
  | unknownField field record =>
    "Unknown field '" ++ field ++ "' for record '" ++ record ++ "'"
  | mayBeNull => "Payload may hold null where the schema does not allow it"
  | unwrittenField name => "Field '" ++ name ++ "' is not written by the payload"
  | unreadField name type =>
    "Unknown field '" ++ name ++ "' of type " ++ Schema.describe (type.getD .null)

end MismatchFault

def Mismatch.message (m : Mismatch) : String := m.fault.message m.expected

namespace DecodingFault

def message : DecodingFault → String
  | badHeader => "Cannot read container header: " ++ unstatedCause
  | badBlock => "Cannot read data block: " ++ unstatedCause
  | badBlockRecord index =>
    "Cannot decode record " ++ toString index ++ " of block: " ++ unstatedCause
  | badRecord => "Cannot decode record: " ++ unstatedCause
  | trailingBytes count => toString count ++ " trailing bytes after record"
  | unfit mismatch => "Cannot read record as the schema: " ++ mismatch.message

/-- The path in the document; only data that were read have one other than the root. -/
def path : DecodingFault → String
  | unfit mismatch => mismatch.path
  | _ => Pointer.root

end DecodingFault

namespace ArgumentFault

/-- The wording; some faults have none of their own. -/
def message? : ArgumentFault → Option String
  | negativeRowsToScan => some "rows_to_scan must be 0 (scan all) or greater"
  | unknownPolicy _ => none
  | longSeparator => some "decimal_separator must be a single character"
  | shortSyncMarker => some "sync_marker must be exactly 16 bytes"
  | unknownZone id => some ("Unknown time zone '" ++ id ++ "'")
  | offsetTooLarge n =>
    some ("offset must be a timedelta strictly between -timedelta(hours=24) and " ++
      "timedelta(hours=24), not " ++ displayMicros n ++ ".")
  | invalidJson line fault =>
    some ("Invalid JSON on line " ++ toString line ++ ": " ++ fault.text)
  | tooManyDigits => none
  | signalingNaN => none
  | notANumber => none
  | schemaRequired => some "Decoding schemaless records requires a schema"
  | inputRequired => some "At least one input file is required"
  | badIndex => none

end ArgumentFault

namespace OverflowFault

def message : OverflowFault → String
  | number => "int too large to convert to float"
  | word => "int too big to convert"
  | time => "date value out of range"

end OverflowFault

namespace FileFault

/-- The number and the wording of a fault. -/
def message : FileFault → String
  | absent => "[Errno 2] No such file or directory"
  | behindFile => "[Errno 20] Not a directory"
  | isFolder => "[Errno 21] Is a directory"

end FileFault

namespace Failure

/-- A message with the path behind it. -/
def atPath (message path : String) : String := message ++ " at " ++ path

/-- The wording of a failure; for some only their kind is told. -/
def message? : Failure → Option String
  | invalidSchema path fault => some (atPath fault.message path)
  | inference path fault => some (atPath fault.message path)
  | encoding path expected actual fault => some (atPath (fault.message expected actual) path)
  | decoding offset fault =>
    some (atPath (fault.message ++ " (byte offset " ++ toString offset ++ ")") fault.path)
  | mismatch m => some (atPath m.message m.path)
  | argument fault => fault.message?
  | unsupportedValue typeName => some ("Unsupported value type " ++ typeName)
  | notScalar kind => some (kind.name ++ " is not a scalar kind")
  | wrongOperand => none
  | noAttribute => none
  | missingKey key => some (Text.quoted key)
  | overflow fault => some fault.message
  | invalidOperation => some "[<class 'decimal.InvalidOperation'>]"
  | exponentOverflow => some "[<class 'decimal.Overflow'>]"
  | badPointer => none
  | repeatedField => none
  | file name fault => some (fault.message ++ ": " ++ Text.quoted name)
  | notUtf8 fault => some fault.message
  | malformedFile fault content left => some (Json.placedMessage fault content left)

def message (f : Failure) : String := f.message?.getD ""

/-- The path at which a failure arose. -/
def path? : Failure → Option String
  | invalidSchema path _ => some path
  | inference path _ => some path
  | encoding path _ _ _ => some path
  | decoding _ fault => some fault.path
  | mismatch m => some m.path
  | _ => none

/-- The offset in the bytes of a decoding failure. -/
def offset? : Failure → Option Nat
  | decoding offset _ => some offset
  | _ => none

/-- The failure of a value that has no text. -/
def ofText : TextFault → Failure
  | .unsupported typeName => unsupportedValue typeName
  | .tooManyDigits => argument .tooManyDigits

/-- The failure of a pointer. -/
def ofPointer : Pointer.Fault → Failure
  | .malformed => badPointer
  | .badIndex => argument .badIndex

/-- The value in a document that a failure points at, `Value.missing` if there is none; the place behind
the last item of a list is no value. -/
def valueAt (f : Failure) (document : Value) : Except Failure (Option Value) :=
  match Pointer.resolve (Pointer.ofPath (f.path?.getD Pointer.root)) document with
  | .error e => .error (ofPointer e)
  | .ok (.found v) => .ok (some v)
  | .ok .absent => .ok (some .missing)
  | .ok .behindLast => .ok none

end Failure
end AvroDocument
