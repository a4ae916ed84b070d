import AvroDocument.Proofs.Classes
import AvroDocument.Proofs.Defaults

/-!
# AvroDocument.Proofs.Exactness

An inferred schema says of each position what the values observed there say, no more and no less.

* `Schema.nodeAt?`: the type that a schema gives to a position.
* `ExactFields`, `ExactItems`, `Exact`: what values say about the type of their position.
* `exact_of_outlined`: the schema of an outline is exact where the outline was made.
* `exact_nodeAt`: and at every position below.
* `inferSchema_exact`: so are inferred schemas.
-/

namespace AvroDocument
namespace Schema

open Inference (Position)

/-- The type at a position of a schema. A key leads to the field that answers to it, and null beside
a record or an array is no obstacle. -/
def nodeAt? (altNamesKey : String) : Position → Json → Option Json
  | [], node => some node
  | .key key :: p, node =>
    let record := nonNull node
    if typeName record = "record" then
      ((fieldsOf record).find? fun field => altName field altNamesKey = key).bind fun field =>
        nodeAt? altNamesKey p (typeOf field)
    else none
  | .items :: p, node =>
    let array := nonNull node
    if typeName array = "array" then nodeAt? altNamesKey p (itemsOf array) else none

end Schema

namespace Inference

variable {altNamesKey : String} {names : List (Position × String)}

/-! ## What values say about types -/

/-- The type of a part of records or arrays is null if only nulls were observed. If not, it admits
null exactly when null was observed or the part was missing. -/
structure ExactNull (vs : List Value) (missing : Prop) (type : Json) : Prop where
  onlyNull : (∀ v ∈ vs, v = .null) → type = .str "null"
  nullable : (∃ v ∈ vs, v ≠ .null) →
    (Schema.isNullable type = true ↔ missing ∨ Value.null ∈ vs)

/-- The fields of a record are the keys of the structs observed, each where it was observed first. -/
structure ExactFields (altNamesKey : String) (vs : List Value) (record : Json) : Prop where
  keys : (Schema.fieldsOf record).map (Schema.altName · altNamesKey) =
    (vs.flatMap textKeys).eraseDups
  types : ∀ field ∈ Schema.fieldsOf record,
    ExactNull (vs.flatMap (inside (.key (Schema.altName field altNamesKey))))
      (∃ v ∈ vs, v.IsStruct ∧ Schema.altName field altNamesKey ∉ textKeys v)
      (Schema.typeOf field)

/-- The items of an array are strings if no item was observed. -/
structure ExactItems (vs : List Value) (array : Json) : Prop where
  unseen : vs.flatMap (inside .items) = [] → Schema.itemsOf array = widest
  type : vs.flatMap (inside .items) ≠ [] →
    ExactNull (vs.flatMap (inside .items)) False (Schema.itemsOf array)

/-- What some values say about the type of their position. -/
structure Exact (altNamesKey : String) (vs : List Value) (node : Json) : Prop where
  null : node = .str "null" ↔ ∀ v ∈ vs, v = .null
  record : Schema.typeName (Schema.nonNull node) = "record" ↔ Throughout Value.IsStruct vs
  array : Schema.typeName (Schema.nonNull node) = "array" ↔ Throughout Value.IsList vs
  scalar : ∀ type, Throughout (fun v => scalarType? v = some type) vs → Schema.nonNull node = type
  mixed : (∃ v ∈ vs, v ≠ .null) → ¬ Throughout Value.IsStruct vs → ¬ Throughout Value.IsList vs →
    (∀ type, ¬ Throughout (fun v => scalarType? v = some type) vs) → Schema.nonNull node = widest
  fields : Schema.typeName (Schema.nonNull node) = "record" →
    ExactFields altNamesKey vs (Schema.nonNull node)
  items : Schema.typeName (Schema.nonNull node) = "array" → ExactItems vs (Schema.nonNull node)

/-- The type at a position is exact for what was observed there. Where nothing was observed, which is
among the items of lists that were all empty, it is string. -/
def ExactAt (altNamesKey : String) (vs : List Value) (node : Json) : Prop :=
  if vs = [] then node = widest else Exact altNamesKey vs node

/-! ## Null in the schema of an outline -/

theorem isNull_iff {o : Outline} (hv : o.Valid) :
    o.schema altNamesKey names = .str "null" ↔ o.isNull = true := by
  cases hv with
  | null => simp [Outline.schema, Outline.isNull]
  | scalar h =>
    simp only [scalarTypes_eq, List.mem_cons, List.not_mem_nil, or_false] at h
    rcases h with rfl | rfl | rfl | rfl | rfl | rfl | rfl | rfl | rfl <;>
      simp [Outline.schema, Outline.isNull]
  | array _ => simp [Outline.schema, Outline.isNull]
  | record _ _ _ _ => simp [Outline.schema, Outline.isNull]

theorem schema_ne_arr {o : Outline} (hv : o.Valid) (members : List Json) :
    o.schema altNamesKey names ≠ .arr members := by
  cases hv with
  | scalar h => exact scalar_ne_arr h members
  | _ => exact Json.noConfusion

theorem nonNull_schema {o : Outline} (hv : o.Valid) :
    Schema.nonNull (o.schema altNamesKey names) = o.schema altNamesKey names := by
  cases h : o.schema altNamesKey names with
  | arr members => exact absurd h (schema_ne_arr hv members)
  | _ => rfl

/-- Null added to a type is passed over. -/
theorem nonNull_optional {o : Outline} (hv : o.Valid) (nullable : Bool) :
    Schema.nonNull (Outline.optional nullable (o.schema altNamesKey names)) =
      o.schema altNamesKey names := by
  rw [Outline.optional_schema hv.knownScalar]
  split
  · rename_i h
    rw [Bool.and_eq_true, Bool.not_eq_true'] at h
    have hmember : Schema.isNullMember (o.schema altNamesKey names) = false :=
      not_nullMember hv h.2 altNamesKey
    rw [Schema.nonNull, List.find?_cons_of_neg (by decide),
      List.find?_cons_of_pos (by rw [hmember]; rfl), Option.getD_some]
  · exact nonNull_schema hv

theorem optional_eq_null {o : Outline} (hv : o.Valid) (nullable : Bool) :
    Outline.optional nullable (o.schema altNamesKey names) = .str "null" ↔ o.isNull = true := by
  rw [Outline.optional_schema hv.knownScalar]
  split
  · rename_i h
    rw [Bool.and_eq_true, Bool.not_eq_true'] at h
    simp [h.2]
  · exact isNull_iff hv

theorem isNullable_optional {o : Outline} (hv : o.Valid) (hn : o.isNull = false)
    (nullable : Bool) :
    Schema.isNullable (Outline.optional nullable (o.schema altNamesKey names)) = nullable := by
  rw [Outline.optional_schema hv.knownScalar, hn, Bool.not_false, Bool.and_true]
  cases nullable with
  | true => rfl
  | false => rw [if_neg (by decide), isNullable_schema hv, hn]

/-! ## The schema of an outline -/

theorem leafType?_eq {v : Value} (h : v ≠ .null) : leafType? v = scalarType? v := by
  cases v with
  | null => exact absurd rfl h
  | _ => rfl

theorem throughout_scalar {type : Json} {vs : List Value} :
    Throughout (fun v => scalarType? v = some type) vs ↔
      Throughout (fun v => leafType? v = some type) vs := by
  refine and_congr_right fun _ => forall₂_congr fun v _ => ?_
  exact ⟨fun h hn => (leafType?_eq hn).trans (h hn), fun h hn => (leafType?_eq hn).symm.trans (h hn)⟩

theorem typeName_null :
    Schema.typeName (Outline.null.schema altNamesKey names) = "null" := rfl

theorem typeName_array (nullable : Bool) (items : Outline) :
    Schema.typeName ((Outline.array nullable items).schema altNamesKey names) = "array" := rfl

theorem typeName_struct (site : RecordSite) (fields : List (FieldKey × Outline)) :
    Schema.typeName ((Outline.record site fields).schema altNamesKey names) = "record" :=
  typeName_record names site _

theorem typeName_scalar {type : Json} (h : type ∈ scalarTypes) :
    Schema.typeName ((Outline.scalar type).schema altNamesKey names) ≠ "record" ∧
      Schema.typeName ((Outline.scalar type).schema altNamesKey names) ≠ "array" := by
  have hk := kind_scalar h
  rw [Outline.schema]
  exact ⟨fun e => absurd (e ▸ hk) (by decide), fun e => absurd (e ▸ hk) (by decide)⟩

section outlined

variable {outer : String} {p : Position} {path : List String} {vs : List Value} {o : Outline}

theorem isNull_of_outlined (ho : Outlined outer p path vs o) :
    o.isNull = true ↔ classify vs = .nothing := by
  cases ho with
  | null h | mixed h | scalar h | emptyArray h | array h _ | record h _ =>
    simp [h, Outline.isNull]

theorem record_of_outlined (ho : Outlined outer p path vs o) :
    Schema.typeName (o.schema altNamesKey names) = "record" ↔ classify vs = .record := by
  cases ho with
  | null h => simp [h, typeName_null]
  | mixed h => simp [h, typeName_scalar widest_mem]
  | scalar h => simp [h, typeName_scalar (scalar_mem_of_classify h)]
  | emptyArray h | array h _ => simp [h, typeName_array]
  | record h _ => simp [h, typeName_struct]

theorem array_of_outlined (ho : Outlined outer p path vs o) :
    Schema.typeName (o.schema altNamesKey names) = "array" ↔
      classify vs = .emptyArray ∨ classify vs = .array := by
  cases ho with
  | null h => simp [h, typeName_null]
  | mixed h => simp [h, typeName_scalar widest_mem]
  | scalar h => simp [h, typeName_scalar (scalar_mem_of_classify h)]
  | emptyArray h | array h _ => simp [h, typeName_array]
  | record h _ => simp [h, typeName_struct]

/-- Null in the type of what lies inside the values of an outline. -/
theorem exactNull_of_outlined (ho : Outlined outer p path vs o) (hs : ∀ v ∈ vs, Supported v)
    {nullable : Bool} {missing : Prop} (hn : nullable = true ↔ missing ∨ Value.null ∈ vs) :
    ExactNull vs missing (Outline.optional nullable (o.schema altNamesKey names)) := by
  have hv := valid_of_outlined ho
  have hnull : o.isNull = true ↔ ∀ v ∈ vs, v = .null :=
    (isNull_of_outlined ho).trans (classify_nothing_iff hs)
  constructor
  · intro h
    exact (optional_eq_null hv nullable).mpr (hnull.mpr h)
  · rintro ⟨v, hmem, hne⟩
    have hsome : o.isNull = false := by
      rw [Bool.eq_false_iff, Ne, hnull]
      exact fun h => hne (h v hmem)
    rw [isNullable_optional hv hsome, hn]

theorem altName_fieldSchema (f : FieldKey × Outline) :
    Schema.altName (fieldSchema altNamesKey names f) altNamesKey = f.1.key :=
  altName_field altNamesKey f.1 f.2.isNull _

theorem fieldsOf_schema (site : RecordSite) (fields : List (FieldKey × Outline)) :
    Schema.fieldsOf ((Outline.record site fields).schema altNamesKey names) =
      fields.map (fieldSchema altNamesKey names) := by
  rw [schema_fields, fieldsOf_record]

theorem itemsOf_schema (nullable : Bool) (items : Outline) :
    Schema.itemsOf ((Outline.array nullable items).schema altNamesKey names) =
      Outline.optional nullable (items.schema altNamesKey names) := rfl

theorem exactFields_of_outlined {site : RecordSite} {types : String → Outline}
    (hp : ∀ v ∈ vs, Plain v)
    (below : ∀ key ∈ keysOf vs, Outlined outer (p ++ [.key key])
      (path ++ [nameOfKey (keysOf vs) key]) (vs.flatMap (inside (.key key))) (types key)) :
    ExactFields altNamesKey vs ((Outline.record site
      ((keysOf vs).map fun key => (fieldOf vs key, types key))).schema altNamesKey names) := by
  constructor
  case keys =>
    rw [fieldsOf_schema, List.map_map, List.map_map, ← keysOf_eq]
    exact (List.map_congr_left fun key _ => altName_fieldSchema _).trans (List.map_id _)
  case types =>
    intro field hf
    rw [fieldsOf_schema, List.map_map] at hf
    obtain ⟨key, hkey, rfl⟩ := List.mem_map.mp hf
    have hbelow := below key hkey
    rw [Function.comp_apply, altName_fieldSchema, typeOf_field (valid_of_outlined hbelow)]
    exact exactNull_of_outlined hbelow (fun w hw => (plain_inside hp _ w hw).1)
      (mayMiss_iff fun v hv => (hp v hv).2.here)

/-- The schema of an outline says of its position what the values say that it was made of. -/
theorem exact_of_outlined (ho : Outlined outer p path vs o) (hp : ∀ v ∈ vs, Plain v)
    (nullable : Bool) :
    Exact altNamesKey vs (Outline.optional nullable (o.schema altNamesKey names)) := by
  have hs : ∀ v ∈ vs, Supported v := fun v hv => (hp v hv).1
  have hv := valid_of_outlined ho
  have hcases := classify_cases hs
  have hoc := ho.of_classify
  constructor
  case null =>
    rw [optional_eq_null hv, isNull_of_outlined ho, classify_nothing_iff hs]
  case record => rw [nonNull_optional hv, record_of_outlined ho, classify_record_iff hs]
  case array => rw [nonNull_optional hv, array_of_outlined ho, classify_lists_iff hs]
  case scalar =>
    intro type h
    rw [classify_scalars (throughout_scalar.mp h)] at hoc
    obtain rfl : o = .scalar type := hoc
    rw [nonNull_optional hv, Outline.schema]
  case mixed =>
    rintro ⟨v, hmem, hne⟩ hstructs hlists hscalars
    rw [nonNull_optional hv]
    cases h : classify vs <;> rw [h] at hcases hoc
    case nothing => exact absurd (hcases v hmem) hne
    case mixed =>
      obtain rfl : o = .scalar widest := hoc
      rw [Outline.schema]
    case scalar type =>
      obtain rfl : o = .scalar type := hoc
      rw [Outline.schema]
      exact hcases.2.resolve_right fun hall => hscalars type (throughout_scalar.mpr hall)
    case record => exact absurd hcases hstructs
    case emptyArray | array => exact absurd hcases.1 hlists
  case fields =>
    rw [nonNull_optional hv, record_of_outlined ho]
    intro h
    rw [h] at hoc
    obtain ⟨types, rfl, below⟩ := hoc
    exact exactFields_of_outlined hp below
  case items =>
    rw [nonNull_optional hv, array_of_outlined ho]
    rintro (h | h) <;> rw [h] at hcases hoc
    · obtain rfl : o = .array false (.scalar widest) := hoc
      exact ⟨fun _ => rfl, fun hne => absurd hcases.2 hne⟩
    · obtain ⟨items, rfl, below⟩ := hoc
      refine ⟨fun hnil => absurd hnil hcases.2, fun _ => ?_⟩
      rw [itemsOf_schema]
      refine exactNull_of_outlined below (fun w hw => (plain_inside hp _ w hw).1) ?_
      rw [countP_null_pos_iff, false_or]

end outlined

/-! ## Positions -/

/-- The field that answers to a key. -/
theorem find?_field {keys : List String} {field : String → FieldKey}
    (hkey : ∀ key, (field key).key = key) (types : String → Outline) (key : String) :
    ((keys.map fun k => (field k, types k)).map (fieldSchema altNamesKey names)).find?
        (fun f => Schema.altName f altNamesKey = key) =
      if key ∈ keys then some (fieldSchema altNamesKey names (field key, types key)) else none := by
  induction keys with
  | nil => rfl
  | cons k keys ih =>
    have hk : Schema.altName (fieldSchema altNamesKey names (field k, types k)) altNamesKey = k :=
      (altName_fieldSchema _).trans (hkey k)
    rw [List.map_cons, List.map_cons]
    by_cases h : k = key
    · subst h
      rw [List.find?_cons_of_pos (by simpa using hk), if_pos List.mem_cons_self]
    · rw [List.find?_cons_of_neg (by simpa [hk] using h), ih]
      simp only [List.mem_cons, Ne.symm h, false_or]

theorem exists_inside {v : Value} {key : String} (h : key ∈ textKeys v) :
    ∃ w, w ∈ inside (.key key) v := by
  obtain ⟨e, he, hk⟩ := List.mem_map.mp (mem_textKeys.mp h)
  refine ⟨e.2, List.mem_map.mpr ⟨e, List.mem_filter.mpr ⟨he, ?_⟩, rfl⟩⟩
  rw [hk, decide_eq_true_eq]

/-- A type that is no record and no array has no positions inside. -/
theorem nodeAt_leaf {node found : Json}
    (hrecord : Schema.typeName (Schema.nonNull node) ≠ "record")
    (harray : Schema.typeName (Schema.nonNull node) ≠ "array") {p : Position}
    (h : Schema.nodeAt? altNamesKey p node = some found) : p = [] ∧ found = node := by
  cases p with
  | nil => exact ⟨rfl, (Option.some.inj h).symm⟩
  | cons step p =>
    cases step with
    | key key => rw [Schema.nodeAt?, if_neg hrecord] at h; cases h
    | items => rw [Schema.nodeAt?, if_neg harray] at h; cases h

/-- The types inside the schema of an outline are exact at every position, by induction on the way
there. -/
theorem exact_nodeAt {outer : String} {p : Position} {path : List String} {vs : List Value}
    {o : Outline} (ho : Outlined outer p path vs o) (hp : ∀ v ∈ vs, Plain v) (hne : vs ≠ [])
    (nullable : Bool) {q : Position} {node : Json}
    (h : Schema.nodeAt? altNamesKey q
      (Outline.optional nullable (o.schema altNamesKey names)) = some node) :
    ExactAt altNamesKey (observed q vs) node := by
  induction q generalizing p path vs o nullable with
  | nil =>
    cases h
    rw [ExactAt, observed, if_neg hne]
    exact exact_of_outlined ho hp nullable
  | cons step q ih =>
    have hs : ∀ v ∈ vs, Supported v := fun v hv => (hp v hv).1
    have hcases := classify_cases hs
    have hoc := ho.of_classify
    have hv := valid_of_outlined ho
    cases step with
    | key key =>
      rw [Schema.nodeAt?, nonNull_optional hv] at h
      simp only [Option.bind_eq_some_iff, Option.ite_none_right_eq_some,
        record_of_outlined ho] at h
      obtain ⟨hclass, field, hfield, hnode⟩ := h
      rw [hclass] at hoc
      obtain ⟨types, rfl, below⟩ := hoc
      rw [fieldsOf_schema, find?_field (fun _ => rfl)] at hfield
      obtain ⟨hkey, hfield⟩ := Option.ite_none_right_eq_some.mp hfield
      obtain rfl := Option.some.inj hfield
      rw [typeOf_field (valid_of_outlined (below key hkey))] at hnode
      obtain ⟨v, hmem, hcarries⟩ := mem_keysOf.mp hkey
      obtain ⟨w, hw⟩ := exists_inside hcarries
      have hsome := List.ne_nil_of_mem (List.mem_flatMap.mpr ⟨v, hmem, hw⟩)
      exact ih (below key hkey) (plain_inside hp _) hsome _ hnode
    | items =>
      rw [Schema.nodeAt?, nonNull_optional hv] at h
      simp only [Option.ite_none_right_eq_some, array_of_outlined ho] at h
      obtain ⟨hclass | hclass, hnode⟩ := h <;> rw [hclass] at hcases hoc
      · obtain rfl : o = .array false (.scalar widest) := hoc
        have hleaf : Schema.nodeAt? altNamesKey q widest = some node := hnode
        obtain ⟨rfl, rfl⟩ := nodeAt_leaf (by decide) (by decide) hleaf
        rw [ExactAt, observed, observed, hcases.2, if_pos rfl]
      · obtain ⟨items, rfl, below⟩ := hoc
        rw [itemsOf_schema] at hnode
        exact ih below (plain_inside hp _) hcases.2 _ hnode

end Inference

open Inference

/-- At every position of an inferred schema the type is exact for the values that the documents hold
there: it admits null, is a record, an array or a scalar, and has fields in the order it has them,
exactly when the values say so. -/
theorem inferSchema_exact {options : Options} (hrows : options.rowsToScan = 0) {docs : List Value}
    (hk : ∀ d ∈ docs, DistinctKeys d) {schema : Json}
    (h : inferSchema options docs = .ok schema) {p : Position} {node : Json}
    (hp : Schema.nodeAt? options.altNamesKey p schema = some node) :
    ExactAt options.altNamesKey (observed p docs) node := by
  obtain ⟨hne, hcount, rfl⟩ := (inferSchema_ok_iff hrows).mp h
  have ho := outlined_outlineOf (fun d hd => (hcount d hd).2) options.typeName
    options.namespaceName
  exact exact_nodeAt ho (fun d hd => ⟨(hcount d hd).2, hk d hd⟩) hne false hp

/-- The items under a key: structs in one document, null beside a struct in the other, which holds a
key more; under the same key of a third document no list at all. -/
theorem inferSchema_exact_items :
    let docs := [Value.struct [(.text "rows", .list [.struct [(.text "a b", .int 1)]])],
      .struct [(.text "rows", .tuple [.null, .struct [(.text "c", .list []), (.text "a b", .null)]]),
        (.text "rest", .text "x")],
      .struct [(.text "rows", .null), (.text "rest", .bool true)]]
    let options := Options.standard "Document" "" (List.replicate 16 0)
    let p : Position := [.key "rows", .items, .key "a b"]
    ∃ schema node, inferSchema options docs = .ok schema ∧
      Schema.nodeAt? options.altNamesKey p schema = some node ∧
      Schema.describe node = "[null, long]" ∧
      ExactAt options.altNamesKey (observed p docs) node := by
  intro docs options p
  have hinfer : inferSchema options docs =
      .ok ((outlineOf "Document" "" docs).finished "json") :=
    (inferSchema_ok_iff rfl).mpr ⟨List.cons_ne_nil _ _, by decide, rfl⟩
  have hshown : (Schema.nodeAt? "json" p
      ((outlineOf "Document" "" docs).finished "json")).map Schema.describe =
        some "[null, long]" := by decide +kernel
  obtain ⟨node, hnode, hdescribe⟩ := Option.map_eq_some_iff.mp hshown
  exact ⟨_, node, hinfer, hnode, hdescribe, inferSchema_exact rfl (by decide) hinfer hnode⟩

end AvroDocument
