import AvroDocument.Binary.Container
import AvroDocument.Coercion
import AvroDocument.Feed
import AvroDocument.Schema.Check

/-!
# AvroDocument.Encoding

Documents written against a schema.

A document is first prepared: every field of the schema is looked up, under its alternate name when
the schema records one, missing fields become null or their default, and scalars go through the table
of scalars. What comes out is the datum that is written.

* `Encoder.ofSchema`: an encoder, for schemas whose types are all supported.
* `Encoder.prepare`, `Encoder.encodeRecord`: one document.
* `Encoder.encodeRecords`: documents one by one.
* `Encoder.encode`: documents as a container file.
-/

namespace AvroDocument

/-- A schema in order, and the options of the job. -/
structure Encoder where
  schema : Json
  registry : Schema.Registry
  layout : Layout
  options : Options

theorem Value.sizeOf_lt_of_member? {key : String} {entries : List (Key × Value)} {v : Value}
    (h : Value.member? key entries = some v) : sizeOf v < sizeOf entries := by
  induction entries with
  | nil => simp [Value.member?] at h
  | cons e rest ih =>
    obtain ⟨k, w⟩ := e
    simp only [Value.member?] at h
    split at h
    · cases h
      simp only [List.cons.sizeOf_spec, Prod.mk.sizeOf_spec]
      omega
    · have := ih h
      simp only [List.cons.sizeOf_spec, Prod.mk.sizeOf_spec]
      omega

theorem Value.sizeOf_lt_of_items? {v : Value} {vs : List Value} (h : v.items? = some vs) :
    sizeOf vs < sizeOf v := by
  cases v <;> simp only [Value.items?, Option.some.injEq, reduceCtorEq] at h
  all_goals
    subst h
    simp only [Value.list.sizeOf_spec, Value.tuple.sizeOf_spec]
    omega

theorem Value.sizeOf_lt_struct (entries : List (Key × Value)) :
    sizeOf entries < sizeOf (Value.struct entries) := by
  simp only [Value.struct.sizeOf_spec]
  omega

theorem Json.sizeOf_lt_of_find? {p : Json → Bool} {js : List Json} {j : Json}
    (h : js.find? p = some j) : sizeOf j < sizeOf (Json.arr js) := by
  have := List.sizeOf_lt_of_mem (List.mem_of_find?_eq_some h)
  simp only [Json.arr.sizeOf_spec]
  omega

/-! ## Preparing -/

namespace Encoding

/-- Whether a value is a text that stands for null at a node. -/
def isNullText (options : Options) (member : Json) : Value → Bool
  | .text s =>
    options.parseStrings && Schema.typeName member ≠ "string" &&
      options.nullValues.contains (Text.trim s)
  | _ => false

def isNull : Value → Bool
  | .null => true
  | _ => false

/-- The names under which the fields of a record are known in documents. -/
def claimedNames (options : Options) (fields : List Json) : List String :=
  fields.map (Schema.altName · options.altNamesKey)

def hasEntry (key : String) (entries : List (Key × Value)) : Bool :=
  (Value.member? key entries).isSome

/-- The key of a struct that a field is read from: its alternate name, or else its name in the
schema, unless that is the alternate name of some field. -/
def sourceKey? (options : Options) (claimed : List String) (entries : List (Key × Value))
    (field : Json) : Option String :=
  let alternate := Schema.altName field options.altNamesKey
  let name := Schema.nameOf field
  if hasEntry alternate entries then some alternate
  else if !claimed.contains name && hasEntry name entries then some name
  else none

/-- The datum of a field that a struct lacks. -/
def absentValue (options : Options) (path : String) (field : Json) : Except Failure Value :=
  let type := Schema.typeOf field
  if Schema.isNullable type then .ok .null
  else
    match field.get? "default" with
    | some default => .ok (Value.ofJson default)
    | none =>
      let alternate := Schema.altName field options.altNamesKey
      .error (.encoding (Pointer.child path alternate) type .missing (.missingField alternate))

/-- The text of a key, as messages give it. -/
def keyText : Key → String
  | .text s => s
  | key => key.display

/-- Refuses the first entry of a struct that no field is read from. -/
def checkDeclared (path : String) (schema : Json) (known : List String) :
    List (Key × Value) → Except Failure Unit
  | [] => .ok ()
  | (key, v) :: entries =>
    let isKnown :=
      match key with
      | .text s => known.contains s
      | _ => false
    if isKnown then checkDeclared path schema known entries
    else
      .error (.encoding (Pointer.child path (keyText key)) schema v
        (.undeclaredField (keyText key) (Schema.plainOption (schema.get? "name"))))

mutual

/-- The datum of a value at a node. -/
def prepareNode (options : Options) (registry : Schema.Registry) (enclosing path : String)
    (schema : Json) (value : Value) : Except Failure Value :=
  match schema with
  | .arr members =>
    match _h : members.find? fun m => !Schema.isNullMember m with
    | none =>
      if (isNull value || isNullText options (.str "null") value) &&
          Schema.isNullable (.arr members) then .ok .null
      else Coercion.refuse path (.arr members) value
    | some member =>
      if isNull value || isNullText options member value then
        if Schema.isNullable (.arr members) then .ok .null
        else Coercion.refuse path (.arr members) value
      else prepareNode options registry enclosing path member value
  | schema =>
    match registry.resolve schema enclosing with
    | .error e => .error e
    | .ok (resolved, inner) =>
      let kind := Schema.typeName resolved
      if kind = "record" then
        match value with
        | .struct entries =>
          let fields := Schema.fieldsOf resolved
          let claimed := claimedNames options fields
          match prepareFields options registry inner path claimed fields entries with
          | .error e => .error e
          | .ok datum =>
            if options.strictSchema then
              match checkDeclared path resolved
                  (fields.filterMap (sourceKey? options claimed entries)) entries with
              | .error e => .error e
              | .ok () => .ok (.struct datum)
            else .ok (.struct datum)
        | v => Coercion.refuse path resolved v
      else if kind = "array" then
        match _h : value.items? with
        | some vs =>
          match prepareItems options registry inner path 0 (Schema.itemsOf resolved) vs with
          | .error e => .error e
          | .ok data => .ok (.list data)
        | none => Coercion.refuse path resolved value
      else
        match value with
        | .null => if kind = "null" then .ok .null else Coercion.refuse path resolved .null
        | v => coerce options path resolved v
termination_by (sizeOf value, sizeOf schema)
decreasing_by
  · exact Prod.Lex.right _ (Json.sizeOf_lt_of_find? _h)
  · exact Prod.Lex.left _ _ (Value.sizeOf_lt_struct _)
  · exact Prod.Lex.left _ _ (Value.sizeOf_lt_of_items? _h)

def prepareItems (options : Options) (registry : Schema.Registry) (enclosing path : String)
    (index : Nat) (items : Json) (vs : List Value) : Except Failure (List Value) :=
  match vs with
  | [] => .ok []
  | v :: vs =>
    match prepareNode options registry enclosing (Pointer.item path index) items v with
    | .error e => .error e
    | .ok datum =>
      match prepareItems options registry enclosing path (index + 1) items vs with
      | .error e => .error e
      | .ok data => .ok (datum :: data)
termination_by (sizeOf vs, 0)
decreasing_by
  all_goals
    apply Prod.Lex.left
    simp only [List.cons.sizeOf_spec]
    omega

/-- The data of the fields of a record, under their names in the schema. -/
def prepareFields (options : Options) (registry : Schema.Registry) (enclosing path : String)
    (claimed : List String) (fields : List Json) (entries : List (Key × Value)) :
    Except Failure (List (Key × Value)) :=
  match fields with
  | [] => .ok []
  | field :: fields =>
    let datum :=
      match sourceKey? options claimed entries field with
      | none => absentValue options path field
      | some key =>
        match _h : Value.member? key entries with
        | none => absentValue options path field
        | some v =>
          prepareNode options registry enclosing (Pointer.child path key) (Schema.typeOf field) v
    match datum with
    | .error e => .error e
    | .ok datum =>
      match prepareFields options registry enclosing path claimed fields entries with
      | .error e => .error e
      | .ok data => .ok ((.text (Schema.nameOf field), datum) :: data)
termination_by (sizeOf entries, sizeOf fields)
decreasing_by
  · exact Prod.Lex.left _ _ (Value.sizeOf_lt_of_member? _h)
  · apply Prod.Lex.right
    simp only [List.cons.sizeOf_spec]
    omega

end

/-- The failure of a datum that is not written. -/
def writeFailure : Binary.WriteFault → Failure
  | .rejected => .wrongOperand
  | .noPrecision => .missingKey "precision"
  | .overflow fault => .overflow fault

/-- Whether a failure counts as one of the writer when a container is written. -/
def isWriterFailure : Failure → Bool
  | .argument _ => true
  | .unsupportedValue _ => true
  | .notScalar _ => true
  | .wrongOperand => true
  | .noAttribute => true
  | _ => false

/-- What a message says about the value that an error points at. -/
def describeTarget (path : String) (document : Value) : String :=
  match Pointer.resolve (Pointer.ofPath path) document with
  | .ok (.found v) => v.describe
  | _ => Value.missing.describe

/-- The warning about a document that is passed over. -/
def skipped (index : Nat) (failure : Failure) (document : Value) : String :=
  "Skipping record " ++ toString index ++ ": " ++ failure.message ++ " (found " ++
    describeTarget (failure.path?.getD Pointer.root) document ++ ")"

end Encoding

namespace Encoder

open Encoding

/-- An encoder for a schema. -/
def ofSchema (options : Options) (schema : Json) : Except Failure Encoder :=
  match Schema.check schema with
  | .error e => .error e
  | .ok registry =>
    match Layout.ofSchema schema with
    | .error e => .error e
    | .ok layout => .ok ⟨schema, registry, layout, options⟩

variable (e : Encoder)

/-- The datum that is written for a document. -/
def prepare (document : Value) : Except Failure Value :=
  prepareNode e.options e.registry "" Pointer.root e.schema document

/-- The bytes of a datum; `fault` is the fault of one that the writer rejects. -/
def writeDatum (fault : EncodingFault) (shown datum : Value) : Except Failure (List UInt8) :=
  match Binary.write e.layout datum with
  | .ok bytes => .ok bytes
  | .error .rejected => .error (.encoding Pointer.root e.schema shown fault)
  | .error f => .error (writeFailure f)

/-- The bytes of one document. -/
def encodeRecord (document : Value) : Except Failure (List UInt8) :=
  match e.prepare document with
  | .error f => .error f
  | .ok datum => e.writeDatum .rejected document datum

/-- The data of documents from an index on. Those that do not fit the schema are treated as the
options say. -/
def preparedFrom (index : Nat) : List Value → Feed Value
  | [] => .empty
  | document :: rest =>
    match e.prepare document with
    | .ok datum => (preparedFrom (index + 1) rest).cons datum
    | .error (.encoding path expected actual fault) =>
      let failure := Failure.encoding path expected actual fault
      match e.options.onBadRecords with
      | .fail => .fail failure
      | .warn => (preparedFrom (index + 1) rest).warn (skipped index failure document)
      | .skip => preparedFrom (index + 1) rest
    | .error failure => .fail failure

def prepared (documents : List Value) : Feed Value := e.preparedFrom 0 documents

/-- The bytes of data from an index on. -/
def writeSteps (failure : Option Failure) (index : Nat) :
    List (Pulled Value) → Feed (List UInt8)
  | [] => ⟨[], failure⟩
  | .warning text :: steps => (writeSteps failure index steps).warn text
  | .item datum :: steps =>
    match e.writeDatum (.rejectedRecord index) datum datum with
    | .error f => .fail f
    | .ok bytes => (writeSteps failure (index + 1) steps).cons bytes

/-- The bytes of documents one by one. -/
def encodeRecords (documents : List Value) : Feed (List UInt8) :=
  let data := e.prepared documents
  e.writeSteps data.failure 0 data.steps

/-- The outcome of writing a container: its bytes as far as they were written, the warnings, and the
number of records. -/
structure Run where
  bytes : List UInt8
  warnings : List String
  outcome : Except Failure Nat

/-- The failure of a container after a number of records. -/
def containerFailure (count : Nat) (failure : Failure) : Failure :=
  if isWriterFailure failure then
    .encoding Pointer.root e.schema .null (.writerFailed count)
  else failure

/-- Writes documents as a container file. When one fails, the blocks that were full before remain;
the count in the failure takes in the record that was being written. -/
def encode (documents : List Value) : Run :=
  if !Container.codecs.contains e.options.codec then
    ⟨[], [], .error (e.containerFailure 0 .wrongOperand)⟩
  else
    let o := e.options
    let head := Container.header e.schema o.codec o.syncMarker
    let data := e.prepared documents
    let records := data.mapItems fun datum =>
      (Binary.write e.layout datum).mapError writeFailure
    let (full, pending) := Container.fullBlocks o.syncInterval o.syncMarker {} records.items
    match records.failure with
    | none =>
      ⟨head ++ full ++ pending.flush o.syncMarker, records.warnings, .ok records.items.length⟩
    | some failure =>
      let written := records.items.length
      let count := if written < data.items.length then written + 1 else written
      ⟨head ++ full, records.warnings, .error (e.containerFailure count failure)⟩

end Encoder
end AvroDocument
