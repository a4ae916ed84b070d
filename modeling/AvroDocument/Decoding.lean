import AvroDocument.Compatibility
import AvroDocument.Encoding

/-!
# AvroDocument.Decoding

Payloads read back into documents.

The data of a payload are read with the schema they were written with. Each is then reconciled with
the schema of the reader: records come back with the fields of that schema, in its order, under their
alternate names.

* `Reconciler.toValue`: a datum reconciled with a schema.
* `Decoder.ofSchema`: a decoder, with a schema or with the one that a container brings.
* `Decoder.results`, `Decoder.recordResults`: one result for each record of a container, or of a list
  of single records.
* `Decoder.decode`, `Decoder.decodeRecords`: the documents alone; records that fail are treated as
  the options say.
-/

namespace AvroDocument

/-- What reconciles data with a schema; a strict one refuses fields and types that it does not
know. -/
structure Reconciler where
  schema : Json
  registry : Schema.Registry
  options : Options
  strict : Bool

namespace Decoding

def mismatch {α : Type} (path : String) (expected : Json) (fault : MismatchFault) :
    Except Failure α :=
  .error (.mismatch ⟨path, expected, fault⟩)

/-- The failure of a datum whose type differs from that of the schema. -/
def wrongType {α : Type} (path : String) (expected : Json) (typeName : String) :
    Except Failure α :=
  mismatch path expected (.wrongType (.str typeName))

/-- The name under which a datum holds the data of a field: its own or the first of its aliases. -/
def sourceName? (entries : List (Key × Value)) (field : Json) : Option String :=
  (Schema.nameOf field :: Schema.aliasesOf field).find? fun name =>
    (Value.member? name entries).isSome

/-- The value of a field that a datum lacks. -/
def absentValue (options : Options) (path : String) (field : Json) : Except Failure Value :=
  let type := Schema.typeOf field
  if Schema.isNullable type then .ok .null
  else
    match field.get? "default" with
    | some default => .ok (Value.ofJson default)
    | none =>
      let key := Schema.altName field options.altNamesKey
      mismatch (Pointer.child path key) type (.missingField key)

/-- Refuses the first entry of a datum that no field is read from. -/
def checkKnown (path : String) (schema : Json) (known : List String) :
    List (Key × Value) → Except Failure Unit
  | [] => .ok ()
  | (key, _) :: entries =>
    let name := Encoding.keyText key
    if known.contains name then checkKnown path schema known entries
    else
      mismatch (Pointer.child path name) schema
        (.unknownField name (Schema.plainOption (schema.get? "name")))

/-- A datum at a primitive node. -/
def scalarValue (options : Options) (path : String) (schema : Json) (datum : Value) :
    Except Failure Value :=
  match datum with
  | .null =>
    if Schema.typeName schema = "null" then .ok .null else wrongType path schema "null"
  | datum =>
    match coerce options path schema datum with
    | .ok v => .ok v
    | .error (.encoding _ _ _ _) => wrongType path schema datum.typeName
    | .error e => .error e

end Decoding

namespace Reconciler

open Decoding

variable (r : Reconciler)

mutual

/-- The value of a datum at a node. -/
def valueNode (enclosing path : String) (schema : Json) (datum : Value) :
    Except Failure Value :=
  match schema with
  | .arr members =>
    if Encoding.isNull datum then
      if Schema.isNullable (.arr members) then .ok .null
      else wrongType path (.arr members) "null"
    else
      match _h : members.find? fun m => !Schema.isNullMember m with
      | none => wrongType path (.arr members) datum.typeName
      | some member => valueNode enclosing path member datum
  | schema =>
    match r.registry.resolve schema enclosing with
    | .error e => .error e
    | .ok (resolved, inner) =>
      let kind := Schema.typeName resolved
      if kind = "record" then
        match datum with
        | .struct entries =>
          let fields := Schema.fieldsOf resolved
          match valueFields inner path [] fields entries with
          | .error e => .error e
          | .ok value =>
            if r.strict then
              match checkKnown path resolved (fields.filterMap (sourceName? entries)) entries with
              | .error e => .error e
              | .ok () => .ok (.struct value)
            else .ok (.struct value)
        | v => wrongType path resolved v.typeName
      else if kind = "array" then
        match datum with
        | .list vs =>
          match valueItems inner path 0 (Schema.itemsOf resolved) vs with
          | .error e => .error e
          | .ok values => .ok (.list values)
        | v => wrongType path resolved v.typeName
      else if Schema.opaqueKinds.contains kind then
        if r.strict then mismatch path resolved (.unknownType kind) else .ok datum
      else scalarValue r.options path resolved datum
termination_by (sizeOf datum, sizeOf schema)
decreasing_by
  · exact Prod.Lex.right _ (Json.sizeOf_lt_of_find? _h)
  · exact Prod.Lex.left _ _ (Value.sizeOf_lt_struct _)
  · apply Prod.Lex.left
    simp only [Value.list.sizeOf_spec]
    omega

def valueItems (enclosing path : String) (index : Nat) (items : Json) (vs : List Value) :
    Except Failure (List Value) :=
  match vs with
  | [] => .ok []
  | v :: vs =>
    match valueNode enclosing (Pointer.item path index) items v with
    | .error e => .error e
    | .ok value =>
      match valueItems enclosing path (index + 1) items vs with
      | .error e => .error e
      | .ok values => .ok (value :: values)
termination_by (sizeOf vs, 0)
decreasing_by
  all_goals
    apply Prod.Lex.left
    simp only [List.cons.sizeOf_spec]
    omega

/-- The values of the fields of a record under their alternate names, behind those already taken. -/
def valueFields (enclosing path : String) (taken : List (Key × Value)) (fields : List Json)
    (entries : List (Key × Value)) : Except Failure (List (Key × Value)) :=
  match fields with
  | [] => .ok taken
  | field :: fields =>
    let key := Schema.altName field r.options.altNamesKey
    let value :=
      match sourceName? entries field with
      | none => absentValue r.options path field
      | some source =>
        match _h : Value.member? source entries with
        | none => absentValue r.options path field
        | some v => valueNode enclosing (Pointer.child path key) (Schema.typeOf field) v
    match value with
    | .error e => .error e
    | .ok value => valueFields enclosing path (Value.setEntry key value taken) fields entries
termination_by (sizeOf entries, sizeOf fields)
decreasing_by
  · exact Prod.Lex.left _ _ (Value.sizeOf_lt_of_member? _h)
  · apply Prod.Lex.right
    simp only [List.cons.sizeOf_spec]
    omega

end

/-- The document of a datum. -/
def toValue (datum : Value) : Except Failure Value :=
  r.valueNode "" Pointer.root r.schema datum

end Reconciler

/-- The outcome of reading one record, and where the record or its block starts. -/
structure DecodeResult where
  outcome : Except Failure Value
  offset : Nat

/-- A schema to read with, if there is one, and the options of the job. -/
structure Decoder where
  schema : Option (Json × Schema.Registry × Layout)
  options : Options

namespace Decoder

open Decoding

/-- A decoder for a schema, or for the schemas that containers bring. -/
def ofSchema (options : Options) (schema : Option Json) : Except Failure Decoder :=
  match schema with
  | none => .ok ⟨none, options⟩
  | some schema =>
    match Schema.check schema with
    | .error e => .error e
    | .ok registry =>
      match Layout.ofSchema schema with
      | .error e => .error e
      | .ok layout => .ok ⟨some (schema, registry, layout), options⟩

variable (d : Decoder)

/-- The result of a datum. Data that do not fit the schema are a mismatch for a strict reader and a
decoding failure for others; any other failure ends the sequence. -/
def reconcile (r : Reconciler) (offset : Nat) (datum : Value) : Except Failure DecodeResult :=
  match r.toValue datum with
  | .ok v => .ok ⟨.ok v, offset⟩
  | .error (.mismatch m) =>
    if r.strict then .ok ⟨.error (.mismatch m), offset⟩
    else .ok ⟨.error (.decoding offset (.unfit m)), offset⟩
  | .error e => .error e

/-! ## Containers -/

/-- The result of a block that is not read: how many bytes were used up, and where it starts. -/
def blockFailure (consumed position : Nat) : DecodeResult :=
  ⟨.error (.decoding consumed .badBlock), position⟩

/-- The results of the records of a block from an index on, and whether all of them were read. -/
def recordsOf (r : Reconciler) (layout : Layout) (offset : Nat) (count index : Nat)
    (body : List UInt8) : Feed DecodeResult × Bool :=
  match count with
  | 0 => (.empty, true)
  | count + 1 =>
    match Binary.read layout body with
    | .error _ => (.ofList [⟨.error (.decoding offset (.badBlockRecord index)), offset⟩], false)
    | .ok (datum, rest) =>
      match reconcile r offset datum with
      | .error e => (.fail e, false)
      | .ok result =>
        let (feed, complete) := recordsOf r layout offset count (index + 1) rest
        (feed.cons result, complete)

/-- The results of the blocks in some bytes; `total` is the size of the container. A block takes at
least one byte, so the number of bytes is fuel enough. -/
def blocksOf (r : Reconciler) (header : Container.Header) (total : Nat) :
    Nat → List UInt8 → Feed DecodeResult
  | 0, _ => .empty
  | _, [] => .empty
  | fuel + 1, bytes =>
    let offset := total - bytes.length
    match Container.readBlock header.sync bytes with
    | .error left => .ofList [blockFailure (total - left.length) offset]
    | .ok (block, rest) =>
      let (feed, complete) := recordsOf r header.layout offset block.count 0 block.body
      if complete then feed.append (blocksOf r header total fuel rest) else feed

/-- The reconciler for the data of a container. -/
def reconcilerFor (header : Container.Header) : Reconciler :=
  match d.schema with
  | none => ⟨header.schema, Schema.Registry.ofSchema header.schema, d.options, false⟩
  | some (schema, registry, _) => ⟨schema, registry, d.options, d.options.strictUnknownFields⟩

/-- Checks the schema of a container, for a strict reader with a schema of its own. -/
def checkHeader (header : Container.Header) : Except Failure Unit :=
  match d.schema with
  | none => .ok ()
  | some (schema, _, _) =>
    if d.options.strictUnknownFields then checkCompatible header.schema schema else .ok ()

/-- The results of the records of a container. A failure to read bytes ends them, and so does a
schema that does not agree. When positions cannot be told (`placed` is false) no block is read. -/
def results (placed : Bool) (bytes : List UInt8) : Feed DecodeResult :=
  match Container.readHeader? bytes with
  | none => .ofList [⟨.error (.decoding 0 .badHeader), 0⟩]
  | some (header, rest) =>
    match d.checkHeader header with
    | .error (.mismatch m) => .ofList [⟨.error (.mismatch m), 0⟩]
    | .error e => .fail e
    | .ok () =>
      let start := bytes.length - rest.length
      if !placed then .ofList [blockFailure 0 0]
      else if !Container.codecs.contains header.codec then .ofList [blockFailure start start]
      else blocksOf (d.reconcilerFor header) header bytes.length rest.length rest

/-! ## Single records -/

/-- The result of one record, whose bytes start at an offset. -/
def recordResult (offset : Nat) (bytes : List UInt8) : Except Failure DecodeResult :=
  match d.schema with
  | none => .error (.argument .schemaRequired)
  | some (schema, registry, layout) =>
    match Binary.read layout bytes with
    | .error left =>
      .ok ⟨.error (.decoding (offset + (bytes.length - left.length)) .badRecord), offset⟩
    | .ok (datum, rest) =>
      if rest.isEmpty then
        reconcile ⟨schema, registry, d.options, d.options.strictUnknownFields⟩ offset datum
      else
        .ok ⟨.error (.decoding (offset + (bytes.length - rest.length))
          (.trailingBytes rest.length)), offset⟩

/-- The results of records, each with its offset in all the bytes. -/
def resultsFrom (offset : Nat) : List (List UInt8) → Feed DecodeResult
  | [] => .empty
  | bytes :: records =>
    match d.recordResult offset bytes with
    | .error e => .fail e
    | .ok result => (resultsFrom (offset + bytes.length) records).cons result

def recordResults (records : List (List UInt8)) : Feed DecodeResult := d.resultsFrom 0 records

/-- The document of one record. -/
def decodeRecord (bytes : List UInt8) : Except Failure Value :=
  match d.recordResult 0 bytes with
  | .error e => .error e
  | .ok result => result.outcome

/-! ## Documents alone -/

/-- The warning about a record that is passed over. -/
def skipped (index : Nat) (failure : Failure) : String :=
  "Skipping record " ++ toString index ++ ": " ++ failure.message

/-- The documents of results from an index on. -/
def documentsFrom (failure : Option Failure) (index : Nat) :
    List (Pulled DecodeResult) → Feed Value
  | [] => ⟨[], failure⟩
  | .warning text :: steps => (documentsFrom failure index steps).warn text
  | .item result :: steps =>
    match result.outcome with
    | .ok v => (documentsFrom failure (index + 1) steps).cons v
    | .error e =>
      match d.options.onBadRecords with
      | .fail => .fail e
      | .warn => (documentsFrom failure (index + 1) steps).warn (skipped index e)
      | .skip => documentsFrom failure (index + 1) steps

/-- The documents of results; records that fail are treated as the options say. -/
def documents (results : Feed DecodeResult) : Feed Value :=
  d.documentsFrom results.failure 0 results.steps

/-- The documents of a container. -/
def decode (placed : Bool) (bytes : List UInt8) : Feed Value := d.documents (d.results placed bytes)

/-- The documents of records. -/
def decodeRecords (records : List (List UInt8)) : Feed Value :=
  d.documents (d.recordResults records)

end Decoder
end AvroDocument
