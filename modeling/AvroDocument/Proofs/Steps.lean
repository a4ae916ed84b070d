import AvroDocument.Decoding

/-!
# AvroDocument.Proofs.Steps

One step of preparing and of reconciling.

* `Reconciler.valueNode_union`, `Encoding.prepareNode_union`: unions hand on to their member.
* `Reconciler.valueNode_other`, `Encoding.prepareNode_other`: other nodes hand on to what they stand
  for, `valuePlain` and `preparePlain`.
-/

namespace AvroDocument

namespace Reconciler

open Decoding

variable {r : Reconciler} {enclosing path : String} {datum : Value}

/-- The value of a datum at a node that stands for itself, inside a namespace. -/
def valuePlain (r : Reconciler) (inner path : String) (plain : Json) (datum : Value) :
    Except Failure Value :=
  if Schema.typeName plain = "record" then
    match datum with
    | .struct entries =>
      match r.valueFields inner path [] (Schema.fieldsOf plain) entries with
      | .error e => .error e
      | .ok value =>
        if r.strict then
          match checkKnown path plain
              ((Schema.fieldsOf plain).filterMap (sourceName? entries)) entries with
          | .error e => .error e
          | .ok () => .ok (.struct value)
        else .ok (.struct value)
    | v => wrongType path plain v.typeName
  else if Schema.typeName plain = "array" then
    match datum with
    | .list vs =>
      match r.valueItems inner path 0 (Schema.itemsOf plain) vs with
      | .error e => .error e
      | .ok values => .ok (.list values)
    | v => wrongType path plain v.typeName
  else if Schema.opaqueKinds.contains (Schema.typeName plain) then
    if r.strict then mismatch path plain (.unknownType (Schema.typeName plain)) else .ok datum
  else scalarValue r.options path plain datum

theorem valueNode_union {members : List Json} :
    r.valueNode enclosing path (.arr members) datum =
      if Encoding.isNull datum then
        if Schema.isNullable (.arr members) then .ok .null
        else wrongType path (.arr members) "null"
      else
        match members.find? fun m => !Schema.isNullMember m with
        | none => wrongType path (.arr members) datum.typeName
        | some member => r.valueNode enclosing path member datum := by
  rw [valueNode]
  split
  · rfl
  · cases members.find? fun m => !Schema.isNullMember m with
    | none => rfl
    | some member => rfl

theorem valueNode_other {schema : Json} (hnode : ∀ members, schema ≠ .arr members) :
    r.valueNode enclosing path schema datum =
      match r.registry.resolve schema enclosing with
      | .error e => .error e
      | .ok (plain, inner) => r.valuePlain inner path plain datum := by
  rw [valueNode]
  · rfl
  · exact hnode

/-- The value of a field of a record. -/
def fieldValue (r : Reconciler) (inner path : String) (entries : List (Key × Value))
    (field : Json) : Except Failure Value :=
  match sourceName? entries field with
  | none => absentValue r.options path field
  | some source =>
    match Value.member? source entries with
    | none => absentValue r.options path field
    | some v =>
      r.valueNode inner (Pointer.child path (Schema.altName field r.options.altNamesKey))
        (Schema.typeOf field) v

theorem valueFields_cons {taken entries : List (Key × Value)} {field : Json} {fields : List Json} :
    r.valueFields enclosing path taken (field :: fields) entries =
      match r.fieldValue enclosing path entries field with
      | .error e => .error e
      | .ok value =>
        r.valueFields enclosing path
          (Value.setEntry (Schema.altName field r.options.altNamesKey) value taken) fields entries := by
  rw [valueFields, fieldValue]
  cases sourceName? entries field with
  | none => rfl
  | some source =>
    dsimp only
    generalize Value.member? source entries = v?
    cases v? <;> rfl

end Reconciler

namespace Encoding

variable {options : Options} {registry : Schema.Registry} {enclosing path : String} {value : Value}

/-- The datum of a value at a node that stands for itself, inside a namespace. -/
def preparePlain (options : Options) (registry : Schema.Registry) (inner path : String)
    (plain : Json) (value : Value) : Except Failure Value :=
  if Schema.typeName plain = "record" then
    match value with
    | .struct entries =>
      match prepareFields options registry inner path
          (claimedNames options (Schema.fieldsOf plain)) (Schema.fieldsOf plain) entries with
      | .error e => .error e
      | .ok datum =>
        if options.strictSchema then
          match checkDeclared path plain
              ((Schema.fieldsOf plain).filterMap
                (sourceKey? options (claimedNames options (Schema.fieldsOf plain)) entries))
              entries with
          | .error e => .error e
          | .ok () => .ok (.struct datum)
        else .ok (.struct datum)
    | v => Coercion.refuse path plain v
  else if Schema.typeName plain = "array" then
    match value.items? with
    | some vs =>
      match prepareItems options registry inner path 0 (Schema.itemsOf plain) vs with
      | .error e => .error e
      | .ok data => .ok (.list data)
    | none => Coercion.refuse path plain value
  else
    match value with
    | .null => if Schema.typeName plain = "null" then .ok .null else Coercion.refuse path plain .null
    | v => coerce options path plain v

theorem prepareNode_union {members : List Json} :
    prepareNode options registry enclosing path (.arr members) value =
      match members.find? fun m => !Schema.isNullMember m with
      | none =>
        if (isNull value || isNullText options (.str "null") value) &&
            Schema.isNullable (.arr members) then .ok .null
        else Coercion.refuse path (.arr members) value
      | some member =>
        if isNull value || isNullText options member value then
          if Schema.isNullable (.arr members) then .ok .null
          else Coercion.refuse path (.arr members) value
        else prepareNode options registry enclosing path member value := by
  rw [prepareNode]
  cases members.find? fun m => !Schema.isNullMember m with
  | none => rfl
  | some member => rfl

theorem prepareNode_other {schema : Json} (hnode : ∀ members, schema ≠ .arr members) :
    prepareNode options registry enclosing path schema value =
      match registry.resolve schema enclosing with
      | .error e => .error e
      | .ok (plain, inner) => preparePlain options registry inner path plain value := by
  rw [prepareNode]
  · cases registry.resolve schema enclosing with
    | error e => rfl
    | ok result =>
      obtain ⟨plain, inner⟩ := result
      simp only [preparePlain]
      split
      · rfl
      · split
        · cases value.items? with
          | none => rfl
          | some vs => rfl
        · rfl
  · exact hnode

/-- The datum of a field of a record. -/
def fieldDatum (options : Options) (registry : Schema.Registry) (inner path : String)
    (claimed : List String) (entries : List (Key × Value)) (field : Json) : Except Failure Value :=
  match sourceKey? options claimed entries field with
  | none => absentValue options path field
  | some key =>
    match Value.member? key entries with
    | none => absentValue options path field
    | some v => prepareNode options registry inner (Pointer.child path key) (Schema.typeOf field) v

theorem prepareFields_cons {claimed : List String} {entries : List (Key × Value)} {field : Json}
    {fields : List Json} :
    prepareFields options registry enclosing path claimed (field :: fields) entries =
      match fieldDatum options registry enclosing path claimed entries field with
      | .error e => .error e
      | .ok datum =>
        match prepareFields options registry enclosing path claimed fields entries with
        | .error e => .error e
        | .ok data => .ok ((.text (Schema.nameOf field), datum) :: data) := by
  rw [prepareFields, fieldDatum]
  cases sourceKey? options claimed entries field with
  | none => rfl
  | some key =>
    dsimp only
    generalize Value.member? key entries = v?
    cases v? <;> rfl

end Encoding
end AvroDocument
