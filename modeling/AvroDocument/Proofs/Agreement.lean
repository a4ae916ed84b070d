import AvroDocument.Proofs.Defaults
import AvroDocument.Proofs.Storage

/-!
# AvroDocument.Proofs.Agreement

Inference and writing agree: a schema takes every document that it was inferred from.

* `AtRecord`: the structs of a document that sit where a schema has a record.
* `prepare_document`, `encodeRecord_document`: a document that counted is prepared and written.
* `encodeRecord_inferred`: all of them are, and every key of every such struct is read by exactly one
  field.
-/

namespace AvroDocument

/-- The structs inside a value that sit at a record of a schema, each with its record. Positions are
reached through members of unions, items of arrays, and the fields that keys are read by; inferred
schemas have no references. -/
inductive AtRecord (options : Options) : Json → Value → Json → List (Key × Value) → Prop
  | here {record : Json} {es : List (Key × Value)} (h : Schema.typeName record = "record") :
    AtRecord options record (.struct es) record es
  | member {members : List Json} {member record : Json} {v : Value} {es : List (Key × Value)}
    (hm : member ∈ members) (below : AtRecord options member v record es) :
    AtRecord options (.arr members) v record es
  | item {schema record : Json} {v w : Value} {vs : List Value} {es : List (Key × Value)}
    (h : Schema.typeName schema = "array") (hi : v.items? = some vs) (hw : w ∈ vs)
    (below : AtRecord options (Schema.itemsOf schema) w record es) :
    AtRecord options schema v record es
  | field {schema field record : Json} {es es' : List (Key × Value)} {key : String} {w : Value}
    (h : Schema.typeName schema = "record") (hf : field ∈ Schema.fieldsOf schema)
    (hk : Encoding.sourceKey? options
      (Encoding.claimedNames options (Schema.fieldsOf schema)) es field = some key)
    (hw : Value.member? key es = some w)
    (below : AtRecord options (Schema.typeOf field) w record es') :
    AtRecord options schema (.struct es) record es'

/-- Every key of a struct is read by exactly one field of a record. -/
def ReadOnce (options : Options) (record : Json) (es : List (Key × Value)) : Prop :=
  ∀ e ∈ es, ∃ key, e.1 = .text key ∧
    (Schema.fieldsOf record).countP (fun field => Encoding.sourceKey? options
      (Encoding.claimedNames options (Schema.fieldsOf record)) es field = some key) = 1

namespace Inference

section positions

variable {options : Options} {names : List (Position × String)} {record : Json}
  {es : List (Key × Value)}

/-- No struct sits at a node that is neither a union nor an array nor a record. -/
theorem not_atRecord {schema : Json} {v : Value} (hu : ∀ js, schema ≠ .arr js)
    (ha : Schema.typeName schema ≠ "array") (hr : Schema.typeName schema ≠ "record") :
    ¬ AtRecord options schema v record es := by
  intro h
  cases h with
  | here h => exact hr h
  | member => exact hu _ rfl
  | item h => exact ha h
  | field h => exact hr h

/-- No struct is inside null. -/
theorem not_null_of_atRecord {schema : Json} {v : Value} (h : AtRecord options schema v record es) :
    v ≠ .null := by
  induction h with
  | here => exact Value.noConfusion
  | member _ _ ih => exact ih
  | item _ hi =>
    rintro rfl
    cases hi
  | field => exact Value.noConfusion

theorem not_atRecord_null {v : Value} : ¬ AtRecord options (.str "null") v record es :=
  not_atRecord (fun _ => Json.noConfusion) (by decide) (by decide)

theorem not_atRecord_scalar {type : Json} (h : type ∈ scalarTypes) {v : Value} :
    ¬ AtRecord options type v record es := by
  have hk := kind_scalar h
  exact not_atRecord (scalar_ne_arr h) (fun e => absurd (e ▸ hk) (by decide))
    fun e => absurd (e ▸ hk) (by decide)

/-- Null added to a type adds no position. -/
theorem atRecord_optional {o : Outline} (hv : o.Valid) {nullable : Bool} {altNamesKey : String}
    {v : Value} (h : AtRecord options (Outline.optional nullable (o.schema altNamesKey names)) v
      record es) : AtRecord options (o.schema altNamesKey names) v record es := by
  rw [Outline.optional_schema hv.knownScalar] at h
  split at h
  · cases h with
    | here h => exact absurd (show "union" = "record" from h) (by decide)
    | member hm below =>
      simp only [List.mem_cons, List.not_mem_nil, or_false] at hm
      rcases hm with rfl | rfl
      · exact absurd below not_atRecord_null
      · exact below
    | item h => exact absurd (show "union" = "array" from h) (by decide)
    | field h => exact absurd (show "union" = "record" from h) (by decide)
  · exact h

/-- The fields of a record read every key of a struct that the record has room for once. -/
theorem readOnce_record {site : RecordSite} {fields : List (FieldKey × Outline)}
    (hn : (fields.map (·.1.key)).Nodup) (hkeys : ∀ e ∈ es, ∃ f ∈ fields, e.1 = .text f.1.key) :
    ReadOnce options ((Outline.record site fields).schema options.altNamesKey names) es := by
  intro e he
  obtain ⟨f, hf, hk⟩ := hkeys e he
  refine ⟨f.1.key, hk, ?_⟩
  have hentry : Encoding.hasEntry f.1.key es = true := by
    rw [Encoding.hasEntry, Value.member?_isSome, ← hk]
    exact List.mem_map_of_mem he
  rw [schema_fields, fieldsOf_record, List.countP_map]
  have hsame : ∀ g ∈ fields,
      ((fun field => decide (Encoding.sourceKey? options (Encoding.claimedNames options
          (fields.map (fieldSchema options.altNamesKey names))) es field = some f.1.key)) ∘
        fieldSchema options.altNamesKey names) g = true ↔ (g.1.key == f.1.key) = true := by
    intro g _
    rw [Function.comp_apply, sourceKey?_field hkeys, decide_eq_true_eq, beq_iff_eq]
    constructor
    · intro h
      split at h
      · exact Option.some.inj h
      · cases h
    · intro h
      rw [h, if_pos hentry]
  rw [List.countP_congr hsame]
  have hcount := hn.count (a := f.1.key)
  rw [if_pos (List.mem_map_of_mem hf), List.count, List.countP_map] at hcount
  exact hcount

/-- Wherever a struct sits at a record, all its keys are read once. -/
theorem readOnce_admits {o : Outline} {nullable : Bool} {v : Value} (ha : Admits o nullable v)
    (hv : o.Valid) (h : AtRecord options (o.schema options.altNamesKey names) v record es) :
    ReadOnce options record es := by
  induction ha with
  | added => exact absurd rfl (not_null_of_atRecord h)
  | nothing => exact absurd h not_atRecord_null
  | text _ _ => exact absurd h (not_atRecord_scalar widest_mem)
  | scalar _ hl => exact absurd h (not_atRecord_scalar (leafType?_mem hl))
  | @list nullable below items v ws hi hall ih =>
    cases h with
    | here h => exact absurd (show "array" = "record" from h) (by decide)
    | item h hi' hw below =>
      cases hv with
      | array hitems =>
        rw [hi, Option.some.injEq] at hi'
        exact ih _ (hi' ▸ hw) hitems (atRecord_optional hitems below)
    | field h => exact absurd (show "array" = "record" from h) (by decide)
  | @struct nullable site fields es hkeys hall ih =>
    cases hv with
    | record hn _ _ hfields =>
      cases h with
      | here _ => exact readOnce_record hn hkeys
      | item h => exact absurd (show "record" = "array" from h) (by decide)
      | field _ hf hk hw below =>
        rw [schema_fields, fieldsOf_record] at hf hk
        obtain ⟨f, hmem, rfl⟩ := List.mem_map.mp hf
        rw [sourceKey?_field hkeys] at hk
        split at hk
        · have hbelow := ih f hmem (hfields f hmem)
          rw [Option.some.inj hk, hw] at hbelow
          rw [typeOf_field (hfields f hmem)] at below
          exact hbelow (atRecord_optional (hfields f hmem) below)
        · cases hk

end positions

/-! ## Documents -/

section documents

variable {docs : List Value} {typeName namespaceName : String}

/-- An outline has room for the documents that it was made of. -/
theorem admits_document (hd : ∀ d ∈ docs, Countable d) (hk : ∀ d ∈ docs, DistinctKeys d)
    {doc : Value} (hdoc : doc ∈ docs) :
    Admits (outlineOf typeName namespaceName docs) false doc := by
  have ho := outlined_outlineOf (fun d h => (hd d h).2) typeName namespaceName
  refine admits_of_outlined ho (fun d h => ⟨(hd d h).2, hk d h⟩) doc hdoc false ?_
  rintro rfl
  cases (hd _ hdoc).1

/-- The encoder of an inferred schema. -/
def encoderOf (job : Options) (typeName namespaceName : String) (docs : List Value) : Encoder :=
  let o := outlineOf typeName namespaceName docs
  let schema := o.finished job.altNamesKey
  ⟨schema, Schema.Registry.ofSchema schema, o.layout (recordNames o.sites), job⟩

theorem encoder_ofSchema (hd : ∀ d ∈ docs, Supported d) (job : Options) :
    Encoder.ofSchema job ((outlineOf typeName namespaceName docs).finished job.altNamesKey) =
      .ok (encoderOf job typeName namespaceName docs) := by
  rw [Encoder.ofSchema, check_finished hd, layout_finished hd]
  rfl

theorem prepare_document {job : Options} {doc : Value}
    (ha : Admits (outlineOf typeName namespaceName docs) false doc)
    (hd : ∀ d ∈ docs, Supported d) (hi : ReadableIntegers doc) :
    (encoderOf job typeName namespaceName docs).prepare doc =
      .ok ((outlineOf typeName namespaceName docs).image (·.name) plainScalar doc) :=
  prepare_admits ha (valid_of_outlined (outlined_outlineOf hd typeName namespaceName)) hi _ _

/-- The datum of a document is written with the layout of the inferred schema. -/
theorem keeps_document {doc : Value} (ha : Admits (outlineOf typeName namespaceName docs) false doc)
    (hd : ∀ d ∈ docs, Supported d) :
    let o := outlineOf typeName namespaceName docs
    Keeps (o.layout (recordNames o.sites)) doc (o.image (·.name) plainScalar doc)
      (o.image (·.name) storedScalar doc) :=
  store_admits ha (valid_of_outlined (outlined_outlineOf hd typeName namespaceName))

theorem encodeRecord_document {job : Options} {doc : Value}
    (ha : Admits (outlineOf typeName namespaceName docs) false doc)
    (hd : ∀ d ∈ docs, Supported d) (hi : ReadableIntegers doc) :
    ∃ bytes, (encoderOf job typeName namespaceName docs).encodeRecord doc = .ok bytes := by
  obtain ⟨bytes, hwrites, _⟩ := keeps_document ha hd
  have hwrite : Binary.write (encoderOf job typeName namespaceName docs).layout
      ((outlineOf typeName namespaceName docs).image (·.name) plainScalar doc) = .ok bytes :=
    hwrites.write_eq
  refine ⟨bytes, ?_⟩
  rw [Encoder.encodeRecord, prepare_document ha hd hi]
  simp only [Encoder.writeDatum, hwrite]

end documents

end Inference

open Inference

/-- A schema takes every document that it was inferred from, whatever the options for writing: it is
written unless an integer in it is too long, and every key of every struct at a record is read by
exactly one field. -/
theorem encodeRecord_inferred {options job : Options} (hrows : options.rowsToScan = 0)
    (hjob : job.altNamesKey = options.altNamesKey) {docs : List Value} {schema : Json}
    (hdocs : ∀ d ∈ docs, DistinctKeys d) (h : inferSchema options docs = .ok schema) :
    ∃ e, Encoder.ofSchema job schema = .ok e ∧ ∀ doc ∈ docs,
      (ReadableIntegers doc → ∃ bytes, e.encodeRecord doc = .ok bytes) ∧
        ∀ record entries, AtRecord job schema doc record entries → ReadOnce job record entries := by
  obtain ⟨_, hcount, rfl⟩ := (inferSchema_ok_iff hrows).mp h
  have hd : ∀ d ∈ docs, Supported d := fun d h => (hcount d h).2
  rw [← hjob]
  refine ⟨_, encoder_ofSchema hd job, fun doc hdoc => ?_⟩
  have ha : Admits (outlineOf options.typeName options.namespaceName docs) false doc :=
    admits_document hcount hdocs hdoc
  refine ⟨encodeRecord_document ha hd, fun record entries hat => ?_⟩
  exact readOnce_admits ha
    (valid_of_outlined (outlined_outlineOf hd options.typeName options.namespaceName)) hat

/-- A strict writer that reads text takes documents with clashing keys, text that stands for null and
missing keys. -/
theorem encodeRecord_clashing_keys :
    let docs := [Value.struct [(.text "a b", .int 1), (.text "a_b", .text "null")],
      .struct [(.text "a_b", .null), (.text "c", .list [.struct [(.text "x", .bool true)], .null])]]
    let options := Options.standard "Document" "" (List.replicate 16 0)
    let job := { options with strictSchema := true, parseStrings := true }
    ∃ schema, inferSchema options docs = .ok schema ∧
      ∃ e, Encoder.ofSchema job schema = .ok e ∧ ∀ doc ∈ docs,
        (ReadableIntegers doc → ∃ bytes, e.encodeRecord doc = .ok bytes) ∧
          ∀ record entries, AtRecord job schema doc record entries →
            ReadOnce job record entries := by
  intro docs options job
  obtain ⟨schema, hinfer⟩ : ∃ schema, inferSchema options docs = .ok schema :=
    ⟨_, (inferSchema_ok_iff rfl).mpr ⟨List.cons_ne_nil _ _, by decide, rfl⟩⟩
  exact ⟨schema, hinfer, encodeRecord_inferred rfl rfl (by decide) hinfer⟩

end AvroDocument
